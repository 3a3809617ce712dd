import Wsmq.Receiver.History
import Wsmq.Shared

/-! Whatever is sent arrives, in any interleaving.

The frames of a family of messages come over one connection, each tagged with the
message it belongs to. An interleaving keeps the order of every message's own
frames and does not mix two messages of one uuid. While a transfer is under way,
the context of its uuid is the one its frames so far leave (`InProgress`), so its
END decodes to the message that was sent. -/
namespace Wsmq

/-- A message, and the call that sends it. -/
structure Sent where
  uuid : Uuid
  bandwidth : UInt64
  request : Request
  message : Bytes
  bandwidth_ne_zero : bandwidth ≠ 0
  payload_eq : request.payload = some message

namespace Sent

def frames (S : Snap) (sent : Sent) : List Frame :=
  (sent.request.sending S sent.bandwidth sent.uuid).frames

/-- The message was longer than the bandwidth. -/
def Chunked (S : Snap) (sent : Sent) : Prop := ∃ f ∈ sent.frames S, f.kind = .BEGIN

theorem carries {S : Snap} (hS : S.Inverts) (sent : Sent) :
    Carries S sent.uuid sent.message (sent.frames S) := by
  obtain ⟨fs, hfs, heq⟩ := request_carries sent.uuid hS sent.bandwidth_ne_zero sent.payload_eq
  rw [frames, heq, Sending.frames_queueAll]
  exact (List.append_nil fs).symm ▸ hfs

end Sent

/-- The frames of the family, each with its own in order, and no frame of one
message between two of another of the same uuid. -/
structure Interleaving {ι : Type} [DecidableEq ι] (S : Snap) (sent : ι → Sent)
    (wire : List (ι × Frame)) : Prop where
  order : ∀ i, Keyed.eventsOf i wire = (sent i).frames S
  noOverlap : ∀ i j, i ≠ j → (sent i).uuid = (sent j).uuid →
    ¬ [i, j, i].Sublist (wire.map Prod.fst)

namespace Interleaving
variable {ι : Type} [DecidableEq ι] {S : Snap} {sent : ι → Sent}

/-- The frame at some place of an interleaving, among the frames of its message. -/
theorem split {past rest : List (ι × Frame)} {i : ι} {f : Frame}
    (h : Interleaving S sent (past ++ (i, f) :: rest)) :
    (sent i).frames S = Keyed.eventsOf i past ++ f :: Keyed.eventsOf i rest := by
  rw [← h.order i, Keyed.eventsOf_append, Keyed.eventsOf_cons_self]

theorem mem {wire : List (ι × Frame)} (h : Interleaving S sent wire) {event : ι × Frame}
    (hevent : event ∈ wire) : event.2 ∈ (sent event.1).frames S := by
  obtain ⟨past, rest, rfl⟩ := List.append_of_mem hevent
  rw [h.split]
  simp

/-- While a transfer is under way, no frame of another has its uuid. -/
theorem uuid_ne {past rest : List (ι × Frame)} {i j : ι} {f : Frame}
    (h : Interleaving S sent (past ++ (i, f) :: rest)) (hj : j ≠ i)
    (hpast : Keyed.eventsOf j past ≠ []) (hrest : Keyed.eventsOf j rest ≠ []) :
    (sent j).uuid ≠ (sent i).uuid := by
  intro huuid
  refine h.noOverlap j i hj huuid ?_
  rw [List.map_append, List.map_cons]
  exact (List.singleton_sublist.mpr (Keyed.eventsOf_ne_nil.mp hpast)).append
    ((List.singleton_sublist.mpr (Keyed.eventsOf_ne_nil.mp hrest)).cons_cons i)

end Interleaving

/-- The messages in the order of their last frames. -/
def completions {ι : Type} [DecidableEq ι] (wire : List (ι × Frame)) : List ι :=
  (wire.map Prod.fst).dedup

namespace Receiver
variable {P : Protobuf} {S : Snap} {cancels : ProgressContext → Bool}

/-! ### One transfer -/

theorem mem_processFrames {uuid : Uuid} {chunks : List Bytes} {seq : UInt64} {f : Frame}
    (hf : f ∈ processFrames uuid seq chunks) : ∃ n chunk, f = processFrame uuid n chunk := by
  induction chunks generalizing seq with
  | nil => cases hf
  | cons chunk rest ih =>
    rcases List.mem_cons.mp hf with rfl | hf
    · exact ⟨_, _, rfl⟩
    · exact ih hf

theorem foldl_processFrames (uuid : Uuid) (seq : UInt64) (chunks : List Bytes)
    (c : MessageContext) :
    (processFrames uuid seq chunks).foldl MessageContext.next (some c) =
      some {c with buffer := c.buffer ++ chunks.flatten} := by
  induction chunks generalizing seq c with
  | nil => simp [processFrames]
  | cons chunk rest ih =>
    show (processFrames uuid (seq + 1) rest).foldl _ (some {c with buffer := c.buffer ++ chunk}) = _
    rw [ih, List.flatten_cons, List.append_assoc]

/-- **One frame of a transfer**, from the context the frames before it left: the
last delivers the message, the others nothing, and none is an error. -/
theorem carries_frame (cancels : ProgressContext → Bool) {u : Uuid} {x : Bytes}
    {done todo : List Frame} {f : Frame} {context : Option MessageContext}
    (h : Carries S u x (done ++ f :: todo))
    (hcontext : done ≠ [] → context = done.foldl MessageContext.next none) :
    delivered S context f = (if todo = [] then some x else none) ∧
      (∀ err, .onError err ∉ MessageContext.callbacks S cancels context u f) ∧
      (todo ≠ [] →
        MessageContext.next context f = (done ++ [f]).foldl MessageContext.next none) := by
  generalize hfs : done ++ f :: todo = fs at h
  cases h with
  | oneshot =>
    cases done with
    | nil =>
      obtain ⟨rfl, rfl⟩ := List.cons.inj hfs
      refine ⟨rfl, fun err => ?_, fun htodo => absurd rfl htodo⟩
      simp [MessageContext.callbacks, oneshotFrame]
    | cons g rest =>
      have hlength := congrArg List.length hfs
      simp at hlength
  | @chunked c chunks hflat hdecode =>
    cases done with
    | nil =>
      obtain ⟨rfl, rfl⟩ := List.cons.inj hfs
      refine ⟨?_, fun err => no_error_progress _ err, fun _ => rfl⟩
      rw [if_neg (by simp)]
      rfl
    | cons g before =>
      obtain ⟨rfl, htail⟩ := List.cons.inj hfs
      rw [hcontext (List.cons_ne_nil _ _)]
      rcases List.eq_nil_or_concat' todo with rfl | ⟨more, last, rfl⟩
      · -- the END: everything was received
        obtain ⟨rfl, hlast⟩ := List.append_inj' htail rfl
        cases hlast
        have hleft : (beginFrame u c.length :: processFrames u 0 chunks).foldl
            MessageContext.next none = some ⟨.SNAPPY, UInt64.ofNat c.length, c⟩ := by
          rw [List.foldl_cons, beginFrame, MessageContext.next, foldl_processFrames, hflat,
            List.nil_append]
        rw [hleft]
        refine ⟨?_, fun err => ?_, fun htodo => absurd rfl htodo⟩
        · rw [if_pos rfl]
          exact delivered_end.mpr ⟨_, rfl, rfl, hdecode⟩
        · simp [MessageContext.callbacks, endFrame, hdecode]
      · have hsnoc : (before ++ f :: more) ++ [last] =
            processFrames u 0 chunks ++ [endFrame u] := by
          rw [← htail]
          simp
        obtain ⟨hprocess, -⟩ := List.append_inj' hsnoc rfl
        have hmem : f ∈ processFrames u 0 chunks := by
          rw [← hprocess]
          simp
        obtain ⟨n, chunk, rfl⟩ := mem_processFrames hmem
        refine ⟨?_, fun err => ?_, fun _ => ?_⟩
        · rw [if_neg (by simp)]
          rfl
        · cases (beginFrame u c.length :: before).foldl MessageContext.next none with
          | none => exact List.not_mem_nil
          | some context => exact no_error_progress _ err
        · rw [List.foldl_append]
          rfl

/-! ### Many transfers -/

variable {ι : Type} [DecidableEq ι] {sent : ι → Sent}

/-- Between two of its frames, the context of a transfer's uuid is the one its
frames so far leave. -/
def InProgress (sent : ι → Sent) (contexts : Contexts) (past rest : List (ι × Frame)) : Prop :=
  ∀ i, Keyed.eventsOf i past ≠ [] → Keyed.eventsOf i rest ≠ [] →
    contexts.lookup (sent i).uuid = (Keyed.eventsOf i past).foldl MessageContext.next none

omit [DecidableEq ι] in
theorem frameOf_sent (hP : P.Inverts) (hS : S.Inverts) {i : ι} {f : Frame}
    (hf : f ∈ (sent i).frames S) : frameOf P (P.writeToBytes f) = some ((sent i).uuid, f) := by
  obtain ⟨huuid, htype⟩ := ((sent i).carries hS).transfer.mem f hf
  exact frameOf_write hP huuid htype

/-- One frame: what it delivers, and that the transfers stay in progress. -/
theorem dispatch_wire (cancels : ProgressContext → Bool) (hP : P.Inverts) (hS : S.Inverts)
    {past rest : List (ι × Frame)} {i : ι} {f : Frame} {contexts : Contexts}
    (h : Interleaving S sent (past ++ (i, f) :: rest))
    (hprogress : InProgress sent contexts past ((i, f) :: rest)) :
    let dispatched := messageDispatch P S cancels contexts (P.writeToBytes f)
    InProgress sent dispatched.1 (past ++ [(i, f)]) rest ∧
      (∀ err, .onError err ∉ dispatched.2) ∧
      deliveries dispatched.2 = if Keyed.eventsOf i rest = [] then
        [((sent i).uuid, (sent i).message)] else [] := by
  have hsplit := h.split
  have hcarries := (sent i).carries hS
  have hmem : f ∈ (sent i).frames S := by
    rw [hsplit]
    simp
  have hframe := frameOf_sent hP hS hmem
  rw [hsplit] at hcarries
  obtain ⟨hdelivered, herror, hnext⟩ := carries_frame cancels hcarries fun hdone =>
    hprogress i hdone (by rw [Keyed.eventsOf_cons_self]; simp)
  rw [dispatch_frame hframe]
  refine ⟨fun j hpast hrest => ?_, herror, ?_⟩
  · by_cases hj : j = i
    · subst hj
      rw [Keyed.lookup_step, if_pos rfl, hnext hrest, Keyed.eventsOf_append,
        Keyed.eventsOf_cons_self]
      rfl
    · rw [Keyed.eventsOf_append, Keyed.eventsOf_cons_ne (Ne.symm hj)] at hpast ⊢
      rw [show Keyed.eventsOf j ([] : List (ι × Frame)) = [] from rfl, List.append_nil] at hpast ⊢
      rw [Keyed.lookup_step, if_neg (h.uuid_ne hj hpast hrest)]
      exact hprogress j hpast (by rwa [Keyed.eventsOf_cons_ne (Ne.symm hj)])
  · rw [deliveries_callbacks, hdelivered]
    split <;> rfl

/-- All frames: the messages come out in the order of their last frames. -/
theorem feed_wire (cancels : ProgressContext → Bool) (hP : P.Inverts) (hS : S.Inverts)
    (past rest : List (ι × Frame)) (contexts : Contexts) (h : Interleaving S sent (past ++ rest))
    (hprogress : InProgress sent contexts past rest) :
    let fed := feed P S cancels contexts (rest.map fun event => P.writeToBytes event.2)
    (∀ err, .onError err ∉ fed.2.flatten) ∧ deliveries fed.2.flatten =
      (completions rest).map fun i => ((sent i).uuid, (sent i).message) := by
  induction rest generalizing past contexts with
  | nil => exact ⟨fun err => List.not_mem_nil, rfl⟩
  | cons event rest ih =>
    obtain ⟨i, f⟩ := event
    obtain ⟨hprogress', herror, hdeliver⟩ := dispatch_wire cancels hP hS h hprogress
    obtain ⟨herrors, hdeliveries⟩ := ih (past ++ [(i, f)]) _
      (by rw [List.append_assoc]; exact h) hprogress'
    show (∀ err, .onError err ∉ (messageDispatch P S cancels contexts (P.writeToBytes f)).2 ++ _) ∧
      deliveries ((messageDispatch P S cancels contexts (P.writeToBytes f)).2 ++ _) = _
    refine ⟨fun err hmem => ?_, ?_⟩
    · rcases List.mem_append.mp hmem with hmem | hmem
      · exact herror err hmem
      · exact herrors err hmem
    · rw [deliveries_append, hdeliver, hdeliveries, completions, completions, List.map_cons]
      by_cases hlast : i ∈ rest.map Prod.fst
      · rw [if_neg (Keyed.eventsOf_ne_nil.mpr hlast), List.dedup_cons_of_mem hlast]
        rfl
      · rw [if_pos (not_not.mp (mt Keyed.eventsOf_ne_nil.mp hlast)),
          List.dedup_cons_of_notMem hlast]
        rfl

/-! ### The contexts left behind -/

/-- A BEGIN makes the frames before it irrelevant. -/
theorem foldl_next_of_begin {fs : List Frame} (h : ∃ m, .begin m ∈ fs)
    (c c' : Option MessageContext) :
    fs.foldl MessageContext.next c = fs.foldl MessageContext.next c' := by
  induction fs generalizing c c' with
  | nil =>
    obtain ⟨m, hm⟩ := h
    cases hm
  | cons f rest ih =>
    by_cases hrest : ∃ m, .begin m ∈ rest
    · exact ih hrest _ _
    · obtain ⟨m, hm⟩ := h
      rcases List.mem_cons.mp hm with rfl | hm
      · rfl
      · exact absurd ⟨m, hm⟩ hrest

theorem foldl_oneshots {fs : List Frame} (h : ∀ f ∈ fs, f.kind = .ONESHOT)
    (c : Option MessageContext) : fs.foldl MessageContext.next c = c := by
  induction fs with
  | nil => rfl
  | cons f rest ih =>
    have hf : f.kind = .ONESHOT := h f (List.mem_cons_self ..)
    cases f with
    | oneshot m => exact ih fun f hmem => h f (List.mem_cons_of_mem _ hmem)
    | begin m => cases hf
    | process m => cases hf
    | «end» m => cases hf

/-- The wire as the receiver sees it: every frame under its uuid. -/
def arriving (sent : ι → Sent) (wire : List (ι × Frame)) : List (Uuid × Frame) :=
  wire.map fun event => ((sent event.1).uuid, event.2)

theorem frames_wire (hP : P.Inverts) (hS : S.Inverts) {wire : List (ι × Frame)}
    (h : Interleaving S sent wire) :
    frames P (wire.map fun event => P.writeToBytes event.2) = arriving sent wire := by
  rw [frames, List.filterMap_map, arriving, ← List.filterMap_eq_map]
  refine List.filterMap_congr fun event hevent => ?_
  exact frameOf_sent hP hS (h.mem hevent)

theorem carries_oneshot {u : Uuid} {x : Bytes} {fs : List Frame} (h : Carries S u x fs)
    (hfs : ¬ ∃ f ∈ fs, f.kind = .BEGIN) : ∀ f ∈ fs, f.kind = .ONESHOT := by
  cases h with
  | oneshot =>
    intro f hf
    cases List.mem_singleton.mp hf
    rfl
  | chunked hflat hdecode => exact absurd ⟨_, List.mem_cons_self .., rfl⟩ hfs

/-- After the BEGIN of a transfer comes its END. -/
theorem carries_end {u : Uuid} {x : Bytes} {pre post : List Frame} {m : Begin}
    (h : Carries S u x (pre ++ .begin m :: post)) : endFrame u ∈ post := by
  generalize hfs : pre ++ .begin m :: post = fs at h
  cases h with
  | oneshot =>
    have hmem : Frame.begin m ∈ [oneshotFrame u x] := by rw [← hfs]; simp
    cases List.mem_singleton.mp hmem
  | @chunked c chunks hflat hdecode =>
    rcases List.eq_nil_or_concat' post with rfl | ⟨before, last, rfl⟩
    · rw [← List.cons_append] at hfs
      obtain ⟨-, hlast⟩ := List.append_inj' hfs rfl
      cases hlast
    · rw [← List.cons_append, ← List.cons_append, ← List.append_assoc] at hfs
      obtain ⟨-, hlast⟩ := List.append_inj' hfs rfl
      cases hlast
      simp

theorem lookup_wire (hS : S.Inverts) {wire : List (ι × Frame)} (h : Interleaving S sent wire)
    (contexts : Contexts) (u : Uuid) :
    ((∃ i, (sent i).uuid = u ∧ (sent i).Chunked S) →
      (Keyed.run MessageContext.next contexts (arriving sent wire)).lookup u = none) ∧
    ((¬ ∃ i, (sent i).uuid = u ∧ (sent i).Chunked S) →
      (Keyed.run MessageContext.next contexts (arriving sent wire)).lookup u =
        contexts.lookup u) := by
  have hmem : ∀ f ∈ Keyed.eventsOf u (arriving sent wire),
      ∃ i, (sent i).uuid = u ∧ (i, f) ∈ wire := by
    intro f hf
    obtain ⟨⟨i, g⟩, hig, heq⟩ := List.mem_map.mp (Keyed.mem_eventsOf.mp hf)
    cases heq
    exact ⟨i, rfl, hig⟩
  rw [Keyed.lookup_run]
  constructor
  · intro h
    obtain ⟨i, rfl, f, hf, hkind⟩ := h
    have hbegin : ∃ m, .begin m ∈ Keyed.eventsOf (sent i).uuid (arriving sent wire) := by
      rw [← h.order i, Keyed.mem_eventsOf] at hf
      cases f with
      | begin m => exact ⟨m, Keyed.mem_eventsOf.mpr (List.mem_map_of_mem hf)⟩
      | _ => cases hkind
    rw [foldl_next_of_begin hbegin _ none]
    by_contra hsome
    obtain ⟨c, hc⟩ := Option.ne_none_iff_exists'.mp hsome
    obtain ⟨m, post, ⟨⟨pre, hpre⟩, hpost⟩, -⟩ := (foldl_next _ c).mp hc
    -- The last BEGIN belongs to some transfer, whose END comes after it.
    obtain ⟨a, b, hsplit, -, rfl⟩ := Keyed.eventsOf_split hpre
    obtain ⟨past, rest, rfl, rfl, hrest⟩ := List.map_eq_append_iff.mp hsplit
    obtain ⟨⟨j, g⟩, rest, rfl, hj, rfl⟩ := List.map_eq_cons_iff.mp hrest
    obtain ⟨huuid, rfl⟩ := Prod.mk.inj hj
    have hend : endFrame (sent j).uuid ∈ Keyed.eventsOf j rest :=
      carries_end (h.split ▸ (sent j).carries hS)
    refine (hpost (endFrame (sent j).uuid) ?_).2 rfl
    rw [Keyed.mem_eventsOf, ← huuid]
    exact List.mem_map_of_mem (Keyed.mem_eventsOf.mp hend)
  · intro hnone
    refine foldl_oneshots (fun f hf => ?_) _
    obtain ⟨i, hu, hif⟩ := hmem f hf
    exact carries_oneshot ((sent i).carries hS) (fun hchunked => hnone ⟨i, hu, hchunked⟩) f
      (h.mem hif)

theorem mem_completions (hS : S.Inverts) {wire : List (ι × Frame)}
    (h : Interleaving S sent wire) (i : ι) : i ∈ completions wire := by
  rw [completions, List.mem_dedup, ← Keyed.eventsOf_ne_nil, h.order i]
  exact ((sent i).carries hS).transfer.ne_nil

/-- **Round trip.** However the frames of the messages are interleaved, every
message is delivered once, under its uuid, when its last frame arrives; nothing is
reported as an error, and the contexts of other uuids stay as they were. -/
theorem round_trip (hP : P.Inverts) (hS : S.Inverts) (contexts : Contexts)
    (wire : List (ι × Frame)) (h : Interleaving S sent wire) :
    let fed := feed P S cancels contexts (wire.map fun event => P.writeToBytes event.2)
    deliveries fed.2.flatten =
        (completions wire).map (fun i => ((sent i).uuid, (sent i).message)) ∧
      ((completions wire).Nodup ∧ ∀ i, i ∈ completions wire) ∧
      (∀ err, .onError err ∉ fed.2.flatten) ∧
      ∀ u, ((∃ i, (sent i).uuid = u ∧ (sent i).Chunked S) → fed.1.lookup u = none) ∧
        ((¬ ∃ i, (sent i).uuid = u ∧ (sent i).Chunked S) →
          fed.1.lookup u = contexts.lookup u) := by
  obtain ⟨herrors, hdeliveries⟩ := feed_wire cancels hP hS [] wire contexts h
    fun i hpast => absurd rfl hpast
  refine ⟨hdeliveries, ⟨List.nodup_dedup _, mem_completions hS h⟩, herrors, fun u => ?_⟩
  rw [feed_contexts, frames_wire hP hS h]
  exact lookup_wire hS h contexts u

/-! ### Three messages, two of one uuid -/

def threeSent : Fin 3 → Sent
  | 0 => ⟨.nil, 16, .bytes (List.replicate 17 7), List.replicate 17 7, by decide, rfl⟩
  | 1 => ⟨⟨List.replicate 16 1, rfl⟩, 1, .message ⟨1, some [[], [5]]⟩, [5], by decide, rfl⟩
  | 2 => ⟨.nil, 1, .bytes [], [], by decide, rfl⟩

/-- The second message comes inside the first, the third after it. -/
def threeWire : List (Fin 3 × Frame) :=
  (((threeSent 0).frames Snap.framed).take 2).map (fun f => (0, f)) ++
    ((threeSent 1).frames Snap.framed).map (fun f => (1, f)) ++
    (((threeSent 0).frames Snap.framed).drop 2).map (fun f => (0, f)) ++
    ((threeSent 2).frames Snap.framed).map (fun f => (2, f))

theorem threeWire_interleaving : Interleaving Snap.framed threeSent threeWire where
  order := by decide +kernel
  noOverlap := by decide +kernel

theorem round_trip_three :
    deliveries (feed Protobuf.generated Snap.framed (fun _ => false) ∅
        (threeWire.map fun event => Protobuf.generated.writeToBytes event.2)).2.flatten =
      [((threeSent 1).uuid, [5]), (.nil, List.replicate 17 7), (.nil, [])] :=
  (round_trip Protobuf.generated_inverts Snap.framed_inverts ∅ threeWire
    threeWire_interleaving).1.trans (by decide +kernel)

end Receiver
end Wsmq
