import Wsmq.Receiver.RoundTrip

/-! The progress reports of a transfer.

`told` is what is called back about one transfer when nothing else of its uuid is
received: for the frames of a chunked message a report for BEGIN, one for every chunk
with the length of the buffer after it, one for END, and the message
(`told_chunked`). No chunk is empty, so the lengths grow, and the last is the length
that BEGIN announced.

Under interleaving the callbacks about a uuid are those of its transfers, one transfer
after the other (`feed_told`). -/
namespace Wsmq

/-- A message's `compute_size`: the number of bytes it writes, as a `u32`. -/
def DynMessage.KnowsSize (m : DynMessage) : Prop :=
  ∀ writes, m.writes = some writes → m.computeSize = UInt32.ofNat writes.flatten.length

def Request.KnowsSize : Request → Prop
  | .bytes _ => True
  | .message m => m.KnowsSize

/-- The sizes of the chunks among the frames. -/
def chunkSizes (fs : List Frame) : List Nat :=
  fs.filterMap fun
    | .process m => some m.message.length
    | _ => none

theorem chunkSizes_processFrames (uuid : Uuid) (seq : UInt64) (chunks : List Bytes) :
    chunkSizes (processFrames uuid seq chunks) = chunks.map List.length := by
  induction chunks generalizing seq with
  | nil => rfl
  | cons chunk rest ih =>
    rw [List.map_cons, ← ih (seq + 1)]
    rfl

theorem chunkSizes_chunked (uuid : Uuid) (length : Nat) (chunks : List Bytes) :
    chunkSizes (beginFrame uuid length :: (processFrames uuid 0 chunks ++ [endFrame uuid])) =
      chunks.map List.length := by
  rw [← chunkSizes_processFrames uuid 0 chunks]
  show chunkSizes (processFrames uuid 0 chunks ++ [endFrame uuid]) = _
  rw [chunkSizes, List.filterMap_append]
  exact List.append_nil _

variable {P : Protobuf} {S : Snap} {cancels : ProgressContext → Bool}

/-- A message that is not empty, compressed and cut into chunks that are not empty. -/
theorem compressed_shape (hS : S.Inverts)
    (hnonempty : ∀ writes c, S.encode writes = some c → writes.flatten ≠ [] → c ≠ [])
    {bandwidth : UInt64} (hb : bandwidth ≠ 0) {uuid : Uuid} {writes : List Bytes}
    {x : Bytes} (hx : writes.flatten = x) (hwrites : writes.flatten ≠ []) {sending : Sending}
    (hsending : ∀ c, S.encode writes = some c →
      sending = SharedData.sendLargeBytes bandwidth uuid c) :
    ∃ c, c ≠ [] ∧ S.decode c = some x ∧
      sending.frames = beginFrame uuid c.length ::
        (processFrames uuid 0 (Chunks.chunks bandwidth.toNat c) ++ [endFrame uuid]) := by
  obtain ⟨c, hc, hdecode⟩ := hS.decode_encode writes
  rw [hx] at hdecode
  refine ⟨c, hnonempty writes c hc hwrites, hdecode, ?_⟩
  rw [hsending c hc, sendLargeBytes_frames hb]

/-- What a message is sent as, when its encoding is not empty: one ONESHOT, or chunks of
an encoding that is not empty either. -/
theorem Sent.shape (hS : S.Inverts)
    (hnonempty : ∀ writes c, S.encode writes = some c → writes.flatten ≠ [] → c ≠ [])
    (sent : Sent) (hsize : sent.request.KnowsSize) :
    sent.frames S = [oneshotFrame sent.uuid sent.message] ∨
      ∃ c, c ≠ [] ∧ S.decode c = some sent.message ∧
        sent.frames S = beginFrame sent.uuid c.length :: (processFrames sent.uuid 0
          (Chunks.chunks sent.bandwidth.toNat c) ++ [endFrame sent.uuid]) := by
  have hb := sent.bandwidth_ne_zero
  have hpayload := sent.payload_eq
  rw [Sent.frames]
  cases hrequest : sent.request with
  | bytes m =>
    rw [hrequest] at hpayload
    cases hpayload
    rw [Request.sending, SharedData.send]
    split
    · rename_i hlong
      have hne : [sent.message].flatten ≠ [] := by
        intro hnil
        rw [List.flatten_singleton] at hnil
        rw [hnil] at hlong
        exact Nat.not_lt_zero _ hlong
      exact .inr (compressed_shape hS hnonempty hb (List.flatten_singleton ..) hne
        fun c hc => by rw [hc])
    · exact .inl rfl
  | message m =>
    rw [hrequest] at hpayload hsize
    obtain ⟨writes, hwrites, hmessage⟩ := Option.map_eq_some_iff.mp hpayload
    rw [Request.sending, SharedData.sendMessage, hwrites]
    split
    · rename_i hlong
      -- A size above the bandwidth is not zero.
      have hne : writes.flatten ≠ [] := by
        intro hnil
        rw [hsize writes hwrites, hnil, gt_iff_lt, UInt32.lt_iff_toNat_lt] at hlong
        exact Nat.not_lt_zero _ hlong
      dsimp only
      exact .inr (compressed_shape hS hnonempty hb hmessage hne fun c hc => by rw [hc])
    · rw [← hmessage]
      exact .inl rfl

namespace Receiver

/-! ### What is told about one transfer -/

/-- The callbacks of frames of one uuid, from the context they find. -/
def told (S : Snap) (cancels : ProgressContext → Bool) (u : Uuid) :
    Option MessageContext → List Frame → List Callback
  | _, [] => []
  | context, f :: rest => MessageContext.callbacks S cancels context u f ++
      told S cancels u (MessageContext.next context f) rest

/-- The lengths of a buffer of length `n` while chunks are appended. -/
def runningLengths : Nat → List Bytes → List Nat
  | _, [] => []
  | n, chunk :: rest => (n + chunk.length) :: runningLengths (n + chunk.length) rest

theorem lt_runningLengths {chunks : List Bytes} (h : ∀ c ∈ chunks, c ≠ []) (n : Nat) :
    ∀ k ∈ runningLengths n chunks, n < k ∧ k ≤ n + (chunks.map List.length).sum := by
  induction chunks generalizing n with
  | nil => intro k hk; cases hk
  | cons chunk rest ih =>
    intro k hk
    have hpos := List.length_pos_iff.mpr (h chunk (List.mem_cons_self ..))
    rw [List.map_cons, List.sum_cons]
    rcases List.mem_cons.mp hk with rfl | hk
    · omega
    · have := ih (fun c hc => h c (List.mem_cons_of_mem _ hc)) _ k hk
      omega

theorem pairwise_runningLengths {chunks : List Bytes} (h : ∀ c ∈ chunks, c ≠ []) (n : Nat) :
    (runningLengths n chunks).Pairwise (· < ·) := by
  induction chunks generalizing n with
  | nil => exact List.Pairwise.nil
  | cons chunk rest ih =>
    have hrest : ∀ c ∈ rest, c ≠ [] := fun c hc => h c (List.mem_cons_of_mem _ hc)
    exact List.pairwise_cons.mpr ⟨fun k hk => (lt_runningLengths hrest _ k hk).1, ih hrest _⟩

theorem getLast_runningLengths {chunks : List Bytes} (h : chunks ≠ []) (n : Nat) :
    (runningLengths n chunks).getLast? = some (n + (chunks.map List.length).sum) := by
  induction chunks generalizing n with
  | nil => exact absurd rfl h
  | cons chunk rest ih =>
    by_cases hrest : rest = []
    · subst hrest
      simp [runningLengths]
    · rw [runningLengths, List.getLast?_cons, ih hrest, List.map_cons, List.sum_cons,
        Nat.add_assoc]
      rfl

/-- A report of a callback that does not cancel. -/
def report (method : FieldType) (u : Uuid) (total : UInt64) (current : UInt64) : Callback :=
  .onCallback (.new method u total current)

theorem told_processFrames (u : Uuid) (seq : UInt64) (chunks : List Bytes) (c : MessageContext)
    (rest : List Frame) :
    told S (fun _ => false) u (some c) (processFrames u seq chunks ++ rest) =
      (runningLengths c.buffer.length chunks).map
          (fun n => report .PROCESS u c.totalLength (UInt64.ofNat n)) ++
        told S (fun _ => false) u (some {c with buffer := c.buffer ++ chunks.flatten}) rest := by
  induction chunks generalizing seq c with
  | nil => simp [processFrames, runningLengths]
  | cons chunk tail ih =>
    show MessageContext.callbacks S (fun _ => false) (some c) u (processFrame u seq chunk) ++
      told S (fun _ => false) u (some {c with buffer := c.buffer ++ chunk})
        (processFrames u (seq + 1) tail ++ rest) = _
    rw [ih]
    dsimp only
    rw [List.length_append, runningLengths, List.map_cons, List.flatten_cons, List.append_assoc,
      List.cons_append]
    show report .PROCESS u c.totalLength (UInt64.ofNat (c.buffer ++ chunk).length) :: _ = _
    rw [List.length_append]
    rfl

/-- **A chunked message**: BEGIN, the growing lengths, END, and the message. -/
theorem told_chunked {u : Uuid} {c x : Bytes} {chunks : List Bytes} (hflat : chunks.flatten = c)
    (hdecode : S.decode c = some x) (context : Option MessageContext) :
    let total := UInt64.ofNat c.length
    told S (fun _ => false) u context
        (beginFrame u c.length :: (processFrames u 0 chunks ++ [endFrame u])) =
      report .BEGIN u total 0 :: ((runningLengths 0 chunks).map
          (fun n => report .PROCESS u total (UInt64.ofNat n)) ++
        [report .END u total total, .onMessage u x]) := by
  dsimp only
  rw [told]
  show report .BEGIN u (UInt64.ofNat c.length) 0 :: told S (fun _ => false) u
    (some ⟨.SNAPPY, UInt64.ofNat c.length, []⟩) (processFrames u 0 chunks ++ [endFrame u]) = _
  rw [told_processFrames]
  dsimp only
  rw [List.nil_append, hflat]
  simp [told, MessageContext.callbacks, endFrame, hdecode, report, ProgressContext.afterCallback]

/-- What a user is to be told about a message that was sent. -/
def Faithful (S : Snap) (sent : Sent) (callbacks : List Callback) : Prop :=
  (sent.Chunked S → ∃ (total : UInt64) (currents : List UInt64),
    callbacks = report .BEGIN sent.uuid total 0 ::
      (currents.map (fun n => report .PROCESS sent.uuid total n) ++
        [report .END sent.uuid total total, .onMessage sent.uuid sent.message]) ∧
    currents ≠ [] ∧ currents.Pairwise (· < ·) ∧ currents.getLast? = some total ∧
    total.toNat = (chunkSizes (sent.frames S)).sum) ∧
  (¬ sent.Chunked S → callbacks = [.onMessage sent.uuid sent.message])

/-- The lengths as they are reported grow too, up to the length of all chunks. -/
theorem reported_lengths {chunks : List Bytes} (hne : ∀ chunk ∈ chunks, chunk ≠ [])
    (hsome : chunks ≠ []) (hlength : (chunks.map List.length).sum < 2 ^ 64) :
    let currents := (runningLengths 0 chunks).map UInt64.ofNat
    currents ≠ [] ∧ currents.Pairwise (· < ·) ∧
      currents.getLast? = some (UInt64.ofNat (chunks.map List.length).sum) := by
  have hlast := getLast_runningLengths hsome 0
  rw [Nat.zero_add] at hlast
  refine ⟨fun hnil => ?_, ?_, ?_⟩
  · rw [List.map_eq_nil_iff.mp hnil] at hlast
    cases hlast
  · apply List.pairwise_map.mpr
    refine (pairwise_runningLengths hne 0).imp_of_mem fun {a b} ha hb hlt => ?_
    have hbound := (lt_runningLengths hne 0 b hb).2
    have ha : a < 2 ^ 64 := by omega
    have hb : b < 2 ^ 64 := by omega
    rw [UInt64.lt_iff_toNat_lt, UInt64.toNat_ofNat_of_lt' ha, UInt64.toNat_ofNat_of_lt' hb]
    exact hlt
  · rw [List.getLast?_map, hlast]
    rfl

/-- What is told about a message alone is faithful. -/
theorem told_faithful (hS : S.Inverts)
    (hnonempty : ∀ writes c, S.encode writes = some c → writes.flatten ≠ [] → c ≠ [])
    (sent : Sent) (hsize : sent.request.KnowsSize)
    (hlength : (chunkSizes (sent.frames S)).sum < 2 ^ 64) :
    Faithful S sent (told S (fun _ => false) sent.uuid none (sent.frames S)) := by
  obtain hone | ⟨c, hc, hdecode, hmany⟩ := sent.shape hS hnonempty hsize
  · refine ⟨fun hchunked => ?_, fun _ => ?_⟩
    · obtain ⟨f, hf, hkind⟩ := hchunked
      rw [hone] at hf
      cases List.mem_singleton.mp hf
      cases hkind
    · rw [hone]
      rfl
  · refine ⟨fun _ => ?_, fun hwhole => ?_⟩
    · have hpos := toNat_pos sent.bandwidth_ne_zero
      have hflat := Chunks.flatten_chunks hpos c
      have hsum : ((Chunks.chunks sent.bandwidth.toNat c).map List.length).sum = c.length := by
        rw [← List.length_flatten, hflat]
      have hsome : Chunks.chunks sent.bandwidth.toNat c ≠ [] := by
        rw [Chunks.chunks_cons hpos hc]
        exact List.cons_ne_nil _ _
      rw [hmany, chunkSizes_chunked] at hlength ⊢
      obtain ⟨hreported, hgrow, hlast⟩ :=
        reported_lengths (fun chunk hmem => Chunks.ne_nil hpos hmem) hsome hlength
      rw [hsum] at hlength hlast ⊢
      rw [told_chunked hflat hdecode]
      refine ⟨UInt64.ofNat c.length, _, ?_, hreported, hgrow, hlast,
        UInt64.toNat_ofNat_of_lt' hlength⟩
      rw [List.map_map]
      rfl
    · refine absurd ⟨beginFrame sent.uuid c.length, ?_, rfl⟩ hwhole
      rw [hmany]
      exact List.mem_cons_self ..

/-! ### Many transfers -/

variable {ι : Type} [DecidableEq ι] {sent : ι → Sent}

/-- What is still to be told about message `i`. -/
def toldOf (S : Snap) (cancels : ProgressContext → Bool) (sent : ι → Sent)
    (past rest : List (ι × Frame)) (i : ι) : List Callback :=
  told S cancels (sent i).uuid ((Keyed.eventsOf i past).foldl MessageContext.next none)
    (Keyed.eventsOf i rest)

theorem toldOf_other {past rest : List (ι × Frame)} {i j : ι} (h : j ≠ i) (f : Frame) :
    toldOf S cancels sent past ((i, f) :: rest) j =
      toldOf S cancels sent (past ++ [(i, f)]) rest j := by
  rw [toldOf, toldOf, Keyed.eventsOf_append, Keyed.eventsOf_cons_ne (Ne.symm h),
    Keyed.eventsOf_cons_ne (Ne.symm h)]
  exact congrArg (fun fs => told S cancels _ (List.foldl _ none fs) _) (List.append_nil _).symm

theorem toldOf_self (past rest : List (ι × Frame)) (i : ι) (f : Frame) :
    toldOf S cancels sent past ((i, f) :: rest) i =
      MessageContext.callbacks S cancels ((Keyed.eventsOf i past).foldl MessageContext.next none)
          (sent i).uuid f ++
        toldOf S cancels sent (past ++ [(i, f)]) rest i := by
  rw [toldOf, toldOf, Keyed.eventsOf_cons_self, told, Keyed.eventsOf_append,
    Keyed.eventsOf_cons_self, List.foldl_append]
  rfl

theorem toldOf_done {past rest : List (ι × Frame)} {i : ι} (h : Keyed.eventsOf i rest = []) :
    toldOf S cancels sent past rest i = [] := by
  rw [toldOf, h]
  rfl

/-- The first frame of a transfer does not look at the context. -/
theorem first_callbacks {u : Uuid} {x : Bytes} {f : Frame} {todo : List Frame}
    (h : Carries S u x (f :: todo)) (c c' : Option MessageContext) :
    MessageContext.callbacks S cancels c u f = MessageContext.callbacks S cancels c' u f := by
  cases h with
  | oneshot => rfl
  | chunked hflat hdecode => rfl

/-- Of the messages of one uuid that are not complete, the one under way is first. -/
theorem completions_head {past rest : List (ι × Frame)} {i : ι} {f : Frame}
    (h : Interleaving S sent (past ++ (i, f) :: rest)) (hi : i ∈ rest.map Prod.fst) :
    ∃ others, (completions rest).filter (fun j => (sent j).uuid = (sent i).uuid) = i :: others ∧
      i ∉ others := by
  have hnodup : ((completions rest).filter fun j => (sent j).uuid = (sent i).uuid).Nodup :=
    (List.nodup_dedup _).filter _
  have hmem : i ∈ (completions rest).filter fun j => (sent j).uuid = (sent i).uuid :=
    List.mem_filter.mpr ⟨List.mem_dedup.mpr hi, by simp⟩
  obtain ⟨before, others, hsplit⟩ := List.append_of_mem hmem
  cases before with
  | nil =>
    rw [List.nil_append] at hsplit
    rw [hsplit] at hnodup ⊢
    exact ⟨others, rfl, (List.nodup_cons.mp hnodup).1⟩
  | cons j before =>
    exfalso
    have hj : j ∈ (completions rest).filter fun j => (sent j).uuid = (sent i).uuid := by
      rw [hsplit]
      exact List.mem_cons_self ..
    have hne : i ≠ j := by
      intro hij
      subst hij
      rw [hsplit, List.cons_append, List.nodup_cons] at hnodup
      exact hnodup.1 (by simp)
    refine h.noOverlap i j hne (of_decide_eq_true (List.mem_filter.mp hj).2).symm ?_
    have hpair : [j, i].Sublist (rest.map Prod.fst) := by
      have htail : [j, i].Sublist (j :: (before ++ i :: others)) :=
        (List.singleton_sublist.mpr (by simp)).cons_cons j
      rw [← List.cons_append, ← hsplit] at htail
      exact (htail.trans List.filter_sublist).trans (List.dedup_sublist _)
    rw [List.map_append, List.map_cons]
    exact (hpair.cons_cons i).trans (List.sublist_append_right _ _)

theorem filter_callbacks (u v : Uuid) (c : Option MessageContext) (f : Frame) :
    (MessageContext.callbacks S cancels c v f).filter (Callback.about u) =
      if v = u then MessageContext.callbacks S cancels c v f else [] := by
  split
  · rename_i h
    apply List.filter_eq_self.mpr
    intro callback hmem
    rw [callbacks_about S cancels c v f callback hmem]
    exact decide_eq_true h
  · rename_i h
    apply List.filter_eq_nil_iff.mpr
    intro callback hmem
    rw [callbacks_about S cancels c v f callback hmem, decide_eq_true_eq]
    exact h

theorem flatMap_toldOf_other {past rest : List (ι × Frame)} {i : ι} {js : List ι} (h : i ∉ js)
    (f : Frame) : js.flatMap (toldOf S cancels sent past ((i, f) :: rest)) =
      js.flatMap (toldOf S cancels sent (past ++ [(i, f)]) rest) := by
  apply List.flatMap_congr
  intro j hj
  exact toldOf_other (ne_of_mem_of_not_mem hj h) f

/-- The callbacks of a frame on the wire are those after the frames of its transfer alone. -/
theorem wire_callbacks (cancels : ProgressContext → Bool) (hP : P.Inverts) (hS : S.Inverts)
    {past rest : List (ι × Frame)} {i : ι} {f : Frame} {contexts : Contexts}
    (h : Interleaving S sent (past ++ (i, f) :: rest))
    (hprogress : InProgress sent contexts past ((i, f) :: rest)) :
    (messageDispatch P S cancels contexts (P.writeToBytes f)).2 =
      MessageContext.callbacks S cancels
        ((Keyed.eventsOf i past).foldl MessageContext.next none) (sent i).uuid f := by
  have hsplit := h.split
  have hframe : frameOf P (P.writeToBytes f) = some ((sent i).uuid, f) :=
    frameOf_sent hP hS (by rw [hsplit]; simp)
  rw [dispatch_frame hframe]
  by_cases hpast : Keyed.eventsOf i past = []
  · have hcarries := (sent i).carries hS
    rw [hsplit, hpast, List.nil_append] at hcarries
    exact first_callbacks hcarries _ _
  · rw [hprogress i hpast (by rw [Keyed.eventsOf_cons_self]; simp)]

/-- **What is told about a uuid**, transfer after transfer, in the order they end. -/
theorem feed_told (cancels : ProgressContext → Bool) (hP : P.Inverts) (hS : S.Inverts)
    (past rest : List (ι × Frame)) (contexts : Contexts) (h : Interleaving S sent (past ++ rest))
    (hprogress : InProgress sent contexts past rest) (u : Uuid) :
    (feed P S cancels contexts (rest.map fun event => P.writeToBytes event.2)).2.flatten.filter
        (Callback.about u) =
      ((completions rest).filter fun i => (sent i).uuid = u).flatMap
        (toldOf S cancels sent past rest) := by
  induction rest generalizing past contexts with
  | nil => rfl
  | cons event rest ih =>
    obtain ⟨i, f⟩ := event
    obtain ⟨hprogress', -, -⟩ := dispatch_wire cancels hP hS h hprogress
    have hrest := ih (past ++ [(i, f)]) _ (by rw [List.append_assoc]; exact h) hprogress'
    show ((messageDispatch P S cancels contexts (P.writeToBytes f)).2 ++ _).filter _ = _
    rw [List.filter_append, hrest, wire_callbacks cancels hP hS h hprogress, filter_callbacks]
    by_cases hlast : i ∈ rest.map Prod.fst
    · -- The transfer goes on: it is the first of its uuid to end.
      rw [show completions ((i, f) :: rest) = completions rest from List.dedup_cons_of_mem hlast]
      split
      · rename_i hu
        subst hu
        obtain ⟨others, hhead, hothers⟩ := completions_head h hlast
        rw [hhead, List.flatMap_cons, List.flatMap_cons, toldOf_self,
          flatMap_toldOf_other hothers, List.append_assoc]
      · rename_i hu
        have hnot : i ∉ (completions rest).filter fun i => (sent i).uuid = u :=
          fun hmem => hu (of_decide_eq_true (List.mem_filter.mp hmem).2)
        rw [flatMap_toldOf_other hnot, List.nil_append]
    · -- The frame is the last of its transfer.
      have hnot : i ∉ (completions rest).filter fun i => (sent i).uuid = u :=
        fun hmem => hlast (List.mem_dedup.mp (List.mem_filter.mp hmem).1)
      rw [show completions ((i, f) :: rest) = i :: completions rest from
        List.dedup_cons_of_notMem hlast]
      split
      · rename_i hu
        rw [List.filter_cons_of_pos (by simpa using hu), List.flatMap_cons, toldOf_self,
          toldOf_done (not_not.mp (mt Keyed.eventsOf_ne_nil.mp hlast)), List.append_nil,
          flatMap_toldOf_other hnot]
      · rename_i hu
        rw [List.filter_cons_of_neg (by simpa using hu), flatMap_toldOf_other hnot, List.nil_append]

/-- **Faithful progress.** However the frames of the messages are interleaved, the
callbacks that carry a uuid are those of its messages, one message after the other: for
a chunked message BEGIN with zero, growing lengths up to the total, END with the total,
and then the message; for any other only the message. -/
theorem progress_faithful (hP : P.Inverts) (hS : S.Inverts)
    (hnonempty : ∀ writes c, S.encode writes = some c → writes.flatten ≠ [] → c ≠ [])
    (contexts : Contexts) (wire : List (ι × Frame)) (h : Interleaving S sent wire)
    (hsize : ∀ i, (sent i).request.KnowsSize)
    (hlength : ∀ i, (chunkSizes ((sent i).frames S)).sum < 2 ^ 64) :
    let fed := feed P S (fun _ => false) contexts
      (wire.map fun event => P.writeToBytes event.2)
    ∃ callbacks : ι → List Callback, (∀ i, Faithful S (sent i) (callbacks i)) ∧
      ((completions wire).Nodup ∧ ∀ i, i ∈ completions wire) ∧
      ∀ u, fed.2.flatten.filter (Callback.about u) =
        ((completions wire).filter fun i => (sent i).uuid = u).flatMap callbacks := by
  refine ⟨toldOf S (fun _ => false) sent [] wire, fun i => ?_,
    ⟨List.nodup_dedup _, mem_completions hS h⟩,
    fun u => feed_told _ hP hS [] wire contexts h (fun i hpast => absurd rfl hpast) u⟩
  rw [toldOf, h.order i]
  exact told_faithful hS hnonempty (sent i) (hsize i) (hlength i)

theorem framed_nonempty (writes : List Bytes) (c : Bytes)
    (h : Snap.framed.encode writes = some c) (hne : writes.flatten ≠ []) : c ≠ [] := by
  cases h
  rw [SnappyFrame.encode, if_neg hne]
  exact List.cons_ne_nil _ _

theorem progress_faithful_three :
    let fed := feed Protobuf.generated Snap.framed (fun _ => false) ∅
      (threeWire.map fun event => Protobuf.generated.writeToBytes event.2)
    ∃ callbacks : Fin 3 → List Callback, (∀ i, Faithful Snap.framed (threeSent i) (callbacks i)) ∧
      ((completions threeWire).Nodup ∧ ∀ i, i ∈ completions threeWire) ∧
      ∀ u, fed.2.flatten.filter (Callback.about u) =
        ((completions threeWire).filter fun i => (threeSent i).uuid = u).flatMap callbacks := by
  refine progress_faithful Protobuf.generated_inverts Snap.framed_inverts framed_nonempty ∅ threeWire
    threeWire_interleaving (fun i => ?_) (by decide +kernel)
  match i with
  | 0 => trivial
  | 1 =>
    intro writes hwrites
    cases hwrites
    rfl
  | 2 => trivial

end Receiver
end Wsmq
