import Wsmq.Receiver.Header
import Wsmq.Receiver.History
import Wsmq.Shared

/-! Which strings are frames, and what comes of a finished transfer.

A string is well formed when it reads as a `Header` with a uuid, the last type on the
wire is one the schema has, and it reads as the message of that type. The dispatcher
reports a header it cannot read and a uuid it cannot use. It does not report the other
two: a type it does not know leaves the one before it, or ONESHOT, and a message that
does not parse is dropped (`keeps_grammar_iff`). So it is whatever the runtime takes for a
list of fields.

A transfer ends with END. What was not compressed is removed and goes nowhere
(`end_settled_iff`). -/
namespace Wsmq

namespace Receiver

/-! ### Well-formed strings -/

/-- The values of the type field, in wire order. -/
def typeValues (fs : List Wire.Field) : List UInt64 :=
  fs.filterMap fun
    | (1, .varint n) => some n
    | _ => none

/-- The type that the last value names; no value at all is ONESHOT. -/
def lastType (fs : List Wire.Field) : Option FieldType :=
  FieldType.fromI32 ((typeValues fs).getLast?.getD 0).toUInt32

/-- The string reads as the message of the type. -/
def parsesAs (F : Wire.Format) (data : Bytes) : FieldType → Bool
  | .ONESHOT => (Oneshot.parseFromBytes F data).isSome
  | .BEGIN => (Begin.parseFromBytes F data).isSome
  | .PROCESS => (Process.parseFromBytes F data).isSome
  | .END => (End.parseFromBytes F data).isSome

/-- A string that the grammar has, over the fields that the runtime reads in it. -/
def wellFormed (F : Wire.Format) (data : Bytes) : Bool :=
  match F.read data, Header.parseFromBytes F data with
  | some fs, some header =>
    header.uuid.length = 16 && (lastType fs).any (parsesAs F data)
  | _, _ => false

theorem fromSlice_eq_none {b : Bytes} : Uuid.fromSlice b = none ↔ b.length ≠ 16 := by
  unfold Uuid.fromSlice
  split <;> simp [*]

/-! ### The type of a header -/

theorem typeValues_snoc (fs : List Wire.Field) (f : Wire.Field) :
    typeValues (fs ++ [f]) = typeValues fs ++ typeValues [f] :=
  List.filterMap_append

theorem typeValues_other {f : Wire.Field} (h : ∀ v, f ≠ (1, v)) : typeValues [f] = [] := by
  unfold typeValues
  apply List.filterMap_cons_none
  split
  · exact absurd rfl (h _)
  · rfl

theorem readEnum_some {α : Type} {fromI32 : UInt32 → Option α} {old x : α} {v : Wire.Value}
    (h : readEnum fromI32 old v = some x) :
    ∃ n, v = .varint n ∧ x = (fromI32 n.toUInt32).getD old := by
  cases v <;> cases h
  exact ⟨_, rfl, rfl⟩

/-- A header has the type that the last value names, if it names one. -/
theorem header_type {fs : List Wire.Field} {header : Header}
    (h : fs.foldlM Header.mergeField ⟨.ONESHOT, []⟩ = some header) {t : FieldType}
    (ht : lastType fs = some t) : header.fieldType = t := by
  induction fs using List.reverseRecOn generalizing header with
  | nil =>
    cases h
    cases ht
    rfl
  | append_singleton fs f ih =>
    obtain ⟨before, hbefore, hf⟩ := Option.bind_eq_some_iff.mp (List.foldlM_append.symm.trans h)
    obtain ⟨after, hafter, hlast⟩ := Option.bind_eq_some_iff.mp hf
    cases hlast
    rw [lastType, typeValues_snoc] at ht
    -- Any other field leaves the values and the type as they were.
    have hskip : (∀ v, f ≠ (1, v)) → header.fieldType = before.fieldType →
        header.fieldType = t := by
      intro hone hsame
      rw [typeValues_other hone, List.append_nil] at ht
      rw [hsame]
      exact ih hbefore ht
    unfold Header.mergeField at hafter
    split at hafter
    · obtain ⟨x, hx, rfl⟩ := Option.map_eq_some_iff.mp hafter
      obtain ⟨n, rfl, rfl⟩ := readEnum_some hx
      have hn : FieldType.fromI32 n.toUInt32 = some t := by simpa [typeValues] using ht
      rw [hn]
      rfl
    · obtain ⟨x, -, rfl⟩ := Option.map_eq_some_iff.mp hafter
      exact hskip (fun v h => by cases h) rfl
    · rename_i hone htwo
      cases hafter
      exact hskip (fun v h => hone v h) rfl

theorem wellFormed_iff {F : Wire.Format} {data : Bytes} : wellFormed F data = true ↔
    ∃ fs header t, F.read data = some fs ∧ Header.parseFromBytes F data = some header ∧
      header.uuid.length = 16 ∧ lastType fs = some t ∧ parsesAs F data t = true := by
  unfold wellFormed
  constructor
  · intro h
    split at h
    · rename_i fs header hfs hheader
      obtain ⟨huuid, htype⟩ := Bool.and_eq_true_iff.mp h
      obtain ⟨t, ht, hparse⟩ := (Option.any_eq_true _ _).mp htype
      exact ⟨fs, header, t, hfs, hheader, of_decide_eq_true huuid, ht, hparse⟩
    · cases h
  · intro h
    obtain ⟨fs, header, t, hfs, hheader, huuid, ht, hparse⟩ := h
    rw [hfs, hheader]
    simp [huuid, ht, hparse]

/-- **A well-formed string is handled as what it names**, under the uuid of its header. -/
theorem wellFormed_frame {F : Wire.Format} {data : Bytes} (h : wellFormed F data = true) :
    ∃ fs t u frame, F.read data = some fs ∧ lastType fs = some t ∧ frame.kind = t ∧
      Header.parseFromBytes F data = some ⟨t, Uuid.bytes u⟩ ∧
      frameOf (.over F) data = some (u, frame) := by
  obtain ⟨fs, header, t, hfs, hheader, huuid, ht, hparse⟩ := wellFormed_iff.mp h
  have hfold : fs.foldlM Header.mergeField ⟨.ONESHOT, []⟩ = some header := by
    rw [← hheader, Header.parseFromBytes, Wsmq.parseFromBytes, hfs]
    rfl
  have htype := header_type hfold ht
  obtain ⟨t', ub⟩ := header
  cases htype
  have hu : Uuid.fromSlice ub = some ⟨ub, huuid⟩ := dif_pos huuid
  refine ⟨fs, t', ⟨ub, huuid⟩, ?_⟩
  unfold frameOf
  rw [show (Protobuf.over F).parseHeader data = _ from hheader, Option.bind_some]
  dsimp only
  rw [hu, Option.bind_some]
  cases t' with
  | ONESHOT =>
    obtain ⟨m, hm⟩ := Option.isSome_iff_exists.mp hparse
    refine ⟨.oneshot m, hfs, ht, rfl, hheader, ?_⟩
    rw [show (Protobuf.over F).parseOneshot data = _ from hm]
    rfl
  | BEGIN =>
    obtain ⟨m, hm⟩ := Option.isSome_iff_exists.mp hparse
    have hparse : (Frame.begin m).ParsesFrom F data := hm
    have hslice : Uuid.fromSlice m.uuid = some ⟨ub, huuid⟩ := (hparse.fromSlice hheader).trans hu
    refine ⟨.begin m, hfs, ht, rfl, hheader, ?_⟩
    rw [show (Protobuf.over F).parseBegin data = _ from hm, Option.bind_some, hslice]
    rfl
  | PROCESS =>
    obtain ⟨m, hm⟩ := Option.isSome_iff_exists.mp hparse
    have hparse : (Frame.process m).ParsesFrom F data := hm
    have hslice : Uuid.fromSlice m.uuid = some ⟨ub, huuid⟩ := (hparse.fromSlice hheader).trans hu
    refine ⟨.process m, hfs, ht, rfl, hheader, ?_⟩
    rw [show (Protobuf.over F).parseProcess data = _ from hm, Option.bind_some, hslice]
    rfl
  | END =>
    obtain ⟨m, hm⟩ := Option.isSome_iff_exists.mp hparse
    have hparse : (Frame.end m).ParsesFrom F data := hm
    have hslice : Uuid.fromSlice m.uuid = some ⟨ub, huuid⟩ := (hparse.fromSlice hheader).trans hu
    refine ⟨.end m, hfs, ht, rfl, hheader, ?_⟩
    rw [show (Protobuf.over F).parseEnd data = _ from hm, Option.bind_some, hslice]
    rfl

/-! ### What is reported -/

def errors (callbacks : List Callback) : List DispatchError :=
  callbacks.filterMap fun
    | .onError err => some err
    | _ => none

/-- The string is reported once, and nothing else comes of it. -/
def Rejects (contexts : Contexts) (dispatched : Contexts × List Callback) : Prop :=
  (errors dispatched.2).length = 1 ∧ (∀ u x, .onMessage u x ∉ dispatched.2) ∧
    (∀ pctx, .onCallback pctx ∉ dispatched.2) ∧ dispatched.1 = contexts

variable {F : Wire.Format} {P : Protobuf} {S : Snap} {cancels : ProgressContext → Bool}
  {contexts : Contexts} {data : Bytes}

/-- What is not well formed is rejected, and of the rest only an END is reported, whose
buffer does not decode. -/
def KeepsGrammar (F : Wire.Format) (S : Snap) (cancels : ProgressContext → Bool)
    (contexts : Contexts) (data : Bytes) : Prop :=
  let dispatched := messageDispatch (.over F) S cancels contexts data
  (wellFormed F data = false → Rejects contexts dispatched) ∧
    (wellFormed F data = true → ∀ err, .onError err ∈ dispatched.2 →
      ∃ u m c, frameOf (.over F) data = some (u, .end m) ∧ contexts.lookup u = some c ∧
        S.decode c.buffer = none)

/-- The only frame that is reported. -/
theorem error_callbacks {context : Option MessageContext} {u : Uuid} {frame : Frame}
    {err : DispatchError} (h : .onError err ∈ MessageContext.callbacks S cancels context u frame) :
    ∃ m c, frame = .end m ∧ context = some c ∧ S.decode c.buffer = none := by
  cases frame with
  | oneshot m => simp [MessageContext.callbacks] at h
  | begin m => exact absurd h (no_error_progress _ err)
  | process m =>
    cases context with
    | none => cases h
    | some c => exact absurd h (no_error_progress _ err)
  | «end» m =>
    cases context with
    | none => cases h
    | some c =>
      simp only [MessageContext.callbacks] at h
      split at h
      · split at h
        · simp at h
        · exact ⟨m, c, rfl, rfl, ‹_›⟩
      · cases h

theorem errors_eq_nil {callbacks : List Callback} (h : ∀ err, .onError err ∉ callbacks) :
    errors callbacks = [] := by
  unfold errors
  apply List.filterMap_eq_nil_iff.mpr
  intro callback hmem
  cases callback with
  | onError err => exact absurd hmem (h err)
  | _ => rfl

/-- A frame is never rejected: it delivers, or reports progress, or is not reported, or
an END is taken out of the map. -/
theorem frame_not_rejected {u : Uuid} {frame : Frame} (h : frameOf P data = some (u, frame)) :
    ¬ Rejects contexts (messageDispatch P S cancels contexts data) := by
  rw [dispatch_frame h]
  intro hrejects
  obtain ⟨herror, hmessage, hprogress, hcontexts⟩ := hrejects
  have hreported : ∃ err, .onError err ∈
      MessageContext.callbacks S cancels (contexts.lookup u) u frame := by
    by_contra hnone
    rw [errors_eq_nil (not_exists.mp hnone)] at herror
    cases herror
  obtain ⟨err, herr⟩ := hreported
  obtain ⟨m, c, rfl, hc, -⟩ := error_callbacks herr
  -- The context it was reported for is gone.
  have hlookup := congrArg (Finmap.lookup u) hcontexts
  rw [Keyed.lookup_step, if_pos rfl, hc] at hlookup
  cases hlookup

/-- Behind a header that can be read nothing is rejected: where the second parse fails,
nothing says so. -/
theorem readable_not_rejected {header : Header} (hheader : Header.parseFromBytes F data = some header)
    (huuid : header.uuid.length = 16) :
    ¬ Rejects contexts (messageDispatch (.over F) S cancels contexts data) := by
  intro hrejects
  cases hframe : frameOf (.over F) data with
  | some f => exact frame_not_rejected hframe hrejects
  | none =>
    have hslice : Uuid.fromSlice header.uuid ≠ none := fun hnone =>
      fromSlice_eq_none.mp hnone huuid
    have hlength := hrejects.1
    rw [dispatch_malformed hframe, malformed,
      show (Protobuf.over F).parseHeader data = _ from hheader] at hlength
    dsimp only at hlength
    rw [if_neg (by simpa using hslice)] at hlength
    cases hlength

theorem rejects_error (contexts : Contexts) (err : DispatchError) :
    Rejects contexts (contexts, [.onError err]) :=
  ⟨rfl, by simp, by simp, rfl⟩

/-- A header that cannot be read, or that has no uuid, is rejected. -/
theorem unreadable_rejected
    (h : ∀ header, Header.parseFromBytes F data = some header → header.uuid.length ≠ 16) :
    Rejects contexts (messageDispatch (.over F) S cancels contexts data) := by
  rw [messageDispatch,
    show (Protobuf.over F).parseHeader data = Header.parseFromBytes F data from rfl]
  cases hheader : Header.parseFromBytes F data with
  | none => exact rejects_error contexts .protobuf
  | some header =>
    dsimp only
    rw [fromSlice_eq_none.mpr (h header hheader)]
    exact rejects_error contexts .uuid

/-- **The grammar is kept** on the well-formed strings and on those whose header cannot
be read or has no uuid; every other string is let through or dropped. This is so for
every runtime and every string, whichever fields it reads there. -/
theorem keeps_grammar_iff (F : Wire.Format) (S : Snap) (cancels : ProgressContext → Bool)
    (contexts : Contexts) (data : Bytes) : KeepsGrammar F S cancels contexts data ↔
      wellFormed F data = true ∨ Header.parseFromBytes F data = none ∨
        ∃ header, Header.parseFromBytes F data = some header ∧ header.uuid.length ≠ 16 := by
  constructor
  · intro h
    by_contra hneg
    obtain ⟨hform, hrest⟩ := not_or.mp hneg
    obtain ⟨hheader, huuid⟩ := not_or.mp hrest
    obtain ⟨header, hheader⟩ := Option.ne_none_iff_exists'.mp hheader
    have hlength : header.uuid.length = 16 := by
      by_contra hlength
      exact huuid ⟨header, hheader, hlength⟩
    exact readable_not_rejected hheader hlength (h.1 (Bool.eq_false_of_not_eq_true hform))
  · intro h
    by_cases hform : wellFormed F data = true
    · refine ⟨fun hnot => absurd (hform.symm.trans hnot) (by decide), fun _ err herr => ?_⟩
      obtain ⟨fs, t, u, frame, -, -, -, -, hframe⟩ := wellFormed_frame hform
      rw [dispatch_frame hframe] at herr
      obtain ⟨m, c, rfl, hc, hdecode⟩ := error_callbacks herr
      exact ⟨u, m, c, hframe, hc, hdecode⟩
    · refine ⟨fun _ => unreadable_rejected fun header hheader => ?_, fun hyes => absurd hyes hform⟩
      obtain hnone | ⟨header', hheader', hlength⟩ := h.resolve_left hform
      · cases hnone.symm.trans hheader
      · cases hheader'.symm.trans hheader
        exact hlength

/-- A type that the schema does not have, and a uuid. -/
def unknownType : Bytes := Wire.Format.narrow.write [(1, .varint 7), (2, .bytes Uuid.nil.bytes)]

/-- A BEGIN whose length is a byte string. -/
def unreadableBegin : Bytes :=
  Wire.Format.narrow.write [(1, .varint 1), (2, .bytes Uuid.nil.bytes), (4, .bytes [])]

/-- **A frame of a type that does not exist is delivered**, as a ONESHOT; a BEGIN whose
length is a byte string is dropped. -/
theorem unknown_type_delivered :
    wellFormed .narrow unknownType = false ∧ wellFormed .narrow unreadableBegin = false ∧
      messageDispatch (.over .narrow) Snap.framed (fun _ => false) ∅ unknownType =
        (∅, [.onMessage .nil []]) ∧
      messageDispatch (.over .narrow) Snap.framed (fun _ => false) ∅ unreadableBegin = (∅, []) ∧
      ¬ KeepsGrammar .narrow Snap.framed (fun _ => false) ∅ unknownType ∧
      ¬ KeepsGrammar .narrow Snap.framed (fun _ => false) ∅ unreadableBegin := by
  have hunknown : wellFormed .narrow unknownType = false := by decide +kernel
  have hunreadable : wellFormed .narrow unreadableBegin = false := by decide +kernel
  have hdelivered : messageDispatch (.over .narrow) Snap.framed (fun _ => false) ∅ unknownType =
      (∅, [.onMessage .nil []]) := by
    decide +kernel
  have hdropped : messageDispatch (.over .narrow) Snap.framed (fun _ => false) ∅ unreadableBegin =
      (∅, []) := by
    decide +kernel
  refine ⟨hunknown, hunreadable, hdelivered, hdropped, fun h => ?_, fun h => ?_⟩
  · have hrejects := h.1 hunknown
    rw [hdelivered] at hrejects
    cases hrejects.1
  · have hrejects := h.1 hunreadable
    rw [hdropped] at hrejects
    cases hrejects.1

/-! ### What comes of a finished transfer -/

/-- The message of a transfer, by the compression its BEGIN announced. -/
def decompress (S : Snap) (buffer : Bytes) : Compression → Option Bytes
  | .NONE => some buffer
  | .SNAPPY => S.decode buffer

/-- The transfer is over, and either its message is handed on or the error is, once. -/
def Settled (S : Snap) (u : Uuid) (compression : Compression) (buffer : Bytes)
    (contexts : Contexts) (dispatched : Contexts × List Callback) : Prop :=
  dispatched.1 = contexts.erase u ∧
    match decompress S buffer compression with
    | some x => deliveries dispatched.2 = [(u, x)] ∧ errors dispatched.2 = []
    | none => deliveries dispatched.2 = [] ∧ (errors dispatched.2).length = 1

theorem dispatch_end {u : Uuid} {m : End} {c : MessageContext}
    (hdata : frameOf P data = some (u, .end m)) (hc : contexts.lookup u = some c) :
    messageDispatch P S cancels contexts data =
      (contexts.erase u, MessageContext.callbacks S cancels (some c) u (.end m)) := by
  rw [dispatch_frame hdata, hc]
  simp only [Keyed.step, MessageContext.next, HashMap.set]

theorem context_settled_iff {u : Uuid} {m : End} {c : MessageContext}
    (hdata : frameOf P data = some (u, .end m)) (hc : contexts.lookup u = some c) :
    Settled S u c.compression c.buffer contexts (messageDispatch P S cancels contexts data) ↔
      c.compression = .SNAPPY := by
  rw [dispatch_end hdata hc, Settled, MessageContext.callbacks]
  dsimp only
  constructor
  · intro h
    by_contra hnone
    obtain ⟨-, hsettled⟩ := h
    rw [if_neg hnone] at hsettled
    cases hcompression : c.compression with
    | SNAPPY => exact hnone hcompression
    | NONE =>
      rw [hcompression] at hsettled
      cases hsettled.1
  · intro h
    rw [if_pos h, h]
    refine ⟨rfl, ?_⟩
    show match S.decode c.buffer with | some x => _ | none => _
    cases S.decode c.buffer with
    | some x => exact ⟨rfl, rfl⟩
    | none => exact ⟨rfl, rfl⟩

/-- **An END settles its transfer** exactly when the transfer was announced as
compressed: whatever was received before, and whatever is in the buffer. -/
theorem end_settled_iff (P : Protobuf) (S : Snap) (cancels : ProgressContext → Bool)
    {before : List Bytes} {data : Bytes} {u : Uuid} {m : End} {b : Begin} {post : List Frame}
    (hdata : frameOf P data = some (u, .end m))
    (hopen : Opens (Keyed.eventsOf u (frames P before)) b post) :
    let contexts := (feed P S cancels ∅ before).1
    Settled S u b.compression (payloads post) contexts (messageDispatch P S cancels contexts data) ↔
      b.compression = .SNAPPY :=
  context_settled_iff hdata ((feed_lookup before u _).mpr ⟨b, post, hopen, rfl⟩)

/-- A transfer of one chunk, before its END. -/
def unfinished (compression : Compression) (chunk : Bytes) : List Bytes :=
  [Protobuf.generated.writeToBytes (.begin ⟨.BEGIN, Uuid.nil.bytes, compression, 1⟩),
    Protobuf.generated.writeToBytes (processFrame .nil 0 chunk)]

theorem unfinished_opens (compression : Compression) (chunk : Bytes) :
    Opens (Keyed.eventsOf .nil (frames Protobuf.generated (unfinished compression chunk)))
      ⟨.BEGIN, Uuid.nil.bytes, compression, 1⟩ [processFrame .nil 0 chunk] := by
  have hbegin : frameOf Protobuf.generated (Protobuf.generated.writeToBytes
      (.begin ⟨.BEGIN, Uuid.nil.bytes, compression, 1⟩)) = some (.nil, _) :=
    frameOf_write Protobuf.generated_inverts rfl rfl
  have hprocess : frameOf Protobuf.generated (Protobuf.generated.writeToBytes
      (processFrame .nil 0 chunk)) = some (.nil, _) :=
    frameOf_write Protobuf.generated_inverts rfl rfl
  rw [unfinished, frames_cons, frames_cons, hbegin, hprocess]
  refine ⟨⟨[], rfl⟩, fun f hf => ?_⟩
  cases List.mem_singleton.mp hf
  simp [processFrame, Frame.kind]

theorem finished_frame : frameOf Protobuf.generated
    (Protobuf.generated.writeToBytes (endFrame .nil)) = some (.nil, endFrame .nil) :=
  frameOf_write Protobuf.generated_inverts rfl rfl

theorem end_settled_compressed :
    let contexts := (feed Protobuf.generated Snap.framed (fun _ => false) ∅
      (unfinished .SNAPPY (SnappyFrame.encode [7]))).1
    Settled Snap.framed .nil .SNAPPY (payloads [processFrame .nil 0 (SnappyFrame.encode [7])])
        contexts (messageDispatch Protobuf.generated Snap.framed (fun _ => false) contexts
          (Protobuf.generated.writeToBytes (endFrame .nil))) ↔
      Compression.SNAPPY = .SNAPPY :=
  end_settled_iff Protobuf.generated Snap.framed (fun _ => false) finished_frame
    (unfinished_opens .SNAPPY (SnappyFrame.encode [7]))

/-- **An uncompressed transfer is swallowed**: its END calls nothing. -/
theorem uncompressed_swallowed :
    let contexts := (feed Protobuf.generated Snap.framed (fun _ => false) ∅
      (unfinished .NONE [7])).1
    let dispatched := messageDispatch Protobuf.generated Snap.framed (fun _ => false) contexts
      (Protobuf.generated.writeToBytes (endFrame .nil))
    contexts.lookup .nil = some ⟨.NONE, 1, [7]⟩ ∧ dispatched = (∅, []) ∧
      ¬ Settled Snap.framed .nil .NONE [7] contexts dispatched := by
  have hdispatched : messageDispatch Protobuf.generated Snap.framed (fun _ => false)
      (feed Protobuf.generated Snap.framed (fun _ => false) ∅ (unfinished .NONE [7])).1
      (Protobuf.generated.writeToBytes (endFrame .nil)) = (∅, []) := by
    decide +kernel
  refine ⟨by decide +kernel, hdispatched, fun h => ?_⟩
  rw [hdispatched] at h
  cases h.2.1

end Receiver
end Wsmq
