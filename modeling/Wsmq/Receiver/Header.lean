import Wsmq.Message

/-! The header view of a frame.

The dispatcher reads every string twice: as a `Header`, for the type and the uuid, and
as the message the type names, for the uuid again and the rest. The five schemas agree
on fields one and two, and what a schema does with the others leaves these alone. So the
fold of a schema over any fields at all, seen through its type and uuid, is the fold of
`Header` (`parseFromBytes_view`), and a message is handled under the uuid its header was
checked for (`header_agrees`). This asks nothing of the runtime that finds the fields; that
what is written reads back as it was, asks that it inverts its writer. -/
namespace Wsmq

/-! ### A message and its header -/

theorem Header.mergeField_other {m : Header} {f : Wire.Field} (hone : ∀ v, f ≠ (1, v))
    (htwo : ∀ v, f ≠ (2, v)) : m.mergeField f = some m := by
  unfold Header.mergeField
  split
  · exact absurd rfl (hone _)
  · exact absurd rfl (htwo _)
  · rfl

/-- One schema's fold read through another. -/
theorem foldlM_view {M N : Type} {merge : M → Wire.Field → Option M}
    {merge' : N → Wire.Field → Option N} {view : M → N}
    (hstep : ∀ m f m', merge m f = some m' → merge' (view m) f = some (view m'))
    {fs : List Wire.Field} {m m' : M} (h : fs.foldlM merge m = some m') :
    fs.foldlM merge' (view m) = some (view m') := by
  induction fs generalizing m with
  | nil =>
    cases h
    rfl
  | cons f rest ih =>
    obtain ⟨between, hf, hrest⟩ := Option.bind_eq_some_iff.mp h
    rw [List.foldlM_cons, hstep m f between hf]
    exact ih hrest

/-- A field that both schemas read. -/
theorem map_view {α M N : Type} (view : M → N) {set : α → M} {set' : α → N} {x : Option α} {m : M}
    (h : x.map set = some m) (hview : ∀ a, view (set a) = set' a) :
    x.map set' = some (view m) := by
  obtain ⟨a, ha, rfl⟩ := Option.map_eq_some_iff.mp h
  rw [ha, Option.map_some, hview]

/-- A field that is unknown to the second schema. -/
theorem map_unviewed {α M N : Type} (view : M → N) {set : α → M} {x : Option α} {m : M} {n : N}
    (h : x.map set = some m) (hview : ∀ a, view (set a) = n) : some n = some (view m) := by
  obtain ⟨a, -, rfl⟩ := Option.map_eq_some_iff.mp h
  rw [hview]

theorem Oneshot.mergeField_header (m : Oneshot) (f : Wire.Field) (m' : Oneshot)
    (h : m.mergeField f = some m') :
    Header.mergeField (Frame.oneshot m).header f = some (Frame.oneshot m').header := by
  unfold Oneshot.mergeField at h
  split at h
  case h_1 | h_2 => exact map_view (Frame.header ∘ .oneshot) h fun _ => rfl
  case h_3 => exact map_unviewed (Frame.header ∘ .oneshot) h fun _ => rfl
  case h_4 hone htwo _ =>
    cases h
    exact Header.mergeField_other hone htwo

theorem Begin.mergeField_header (m : Begin) (f : Wire.Field) (m' : Begin)
    (h : m.mergeField f = some m') :
    Header.mergeField (Frame.begin m).header f = some (Frame.begin m').header := by
  unfold Begin.mergeField at h
  split at h
  case h_1 | h_2 => exact map_view (Frame.header ∘ .begin) h fun _ => rfl
  case h_3 | h_4 => exact map_unviewed (Frame.header ∘ .begin) h fun _ => rfl
  case h_5 hone htwo _ _ =>
    cases h
    exact Header.mergeField_other hone htwo

theorem Process.mergeField_header (m : Process) (f : Wire.Field) (m' : Process)
    (h : m.mergeField f = some m') :
    Header.mergeField (Frame.process m).header f = some (Frame.process m').header := by
  unfold Process.mergeField at h
  split at h
  case h_1 | h_2 => exact map_view (Frame.header ∘ .process) h fun _ => rfl
  case h_3 | h_4 => exact map_unviewed (Frame.header ∘ .process) h fun _ => rfl
  case h_5 hone htwo _ _ =>
    cases h
    exact Header.mergeField_other hone htwo

theorem End.mergeField_header (m : End) (f : Wire.Field) (m' : End)
    (h : m.mergeField f = some m') :
    Header.mergeField (Frame.end m).header f = some (Frame.end m').header := by
  unfold End.mergeField at h
  split at h
  case h_1 | h_2 => exact map_view (Frame.header ∘ .end) h fun _ => rfl
  case h_3 hone htwo =>
    cases h
    exact Header.mergeField_other hone htwo

variable {F : Wire.Format}

/-- What reads as a message reads as its header. -/
theorem parseFromBytes_view {M N : Type} {merge : M → Wire.Field → Option M}
    {merge' : N → Wire.Field → Option N} {view : M → N}
    (hstep : ∀ m f m', merge m f = some m' → merge' (view m) f = some (view m')) {new m : M}
    {data : Bytes} (h : parseFromBytes F merge new data = some m) :
    parseFromBytes F merge' (view new) data = some (view m) := by
  unfold parseFromBytes at h ⊢
  obtain ⟨fs, hfs, hfold⟩ := Option.bind_eq_some_iff.mp h
  rw [hfs]
  exact foldlM_view hstep hfold

theorem Oneshot.parse_header {data : Bytes} {m : Oneshot}
    (h : Oneshot.parseFromBytes F data = some m) :
    Header.parseFromBytes F data = some (Frame.oneshot m).header :=
  parseFromBytes_view Oneshot.mergeField_header h

theorem Begin.parse_header {data : Bytes} {m : Begin} (h : Begin.parseFromBytes F data = some m) :
    Header.parseFromBytes F data = some (Frame.begin m).header :=
  parseFromBytes_view Begin.mergeField_header h

theorem Process.parse_header {data : Bytes} {m : Process}
    (h : Process.parseFromBytes F data = some m) :
    Header.parseFromBytes F data = some (Frame.process m).header :=
  parseFromBytes_view Process.mergeField_header h

theorem End.parse_header {data : Bytes} {m : End} (h : End.parseFromBytes F data = some m) :
    Header.parseFromBytes F data = some (Frame.end m).header :=
  parseFromBytes_view End.mergeField_header h

/-- The string reads as the frame, by the schema of its kind. -/
def Frame.ParsesFrom (F : Wire.Format) (data : Bytes) : Frame → Prop
  | .oneshot m => Oneshot.parseFromBytes F data = some m
  | .begin m => Begin.parseFromBytes F data = some m
  | .process m => Process.parseFromBytes F data = some m
  | .end m => End.parseFromBytes F data = some m

theorem Frame.ParsesFrom.header {data : Bytes} {f : Frame} (h : f.ParsesFrom F data) :
    Header.parseFromBytes F data = some f.header := by
  cases f with
  | oneshot m => exact Oneshot.parse_header h
  | begin m => exact Begin.parse_header h
  | process m => exact Process.parse_header h
  | «end» m => exact End.parse_header h

theorem Frame.ReadsBack.parsesFrom {f : Frame} (h : f.ReadsBack F) :
    f.ParsesFrom F (f.writeToBytes F) := by
  cases f with
  | oneshot m => exact Oneshot.parse_write h
  | begin m => exact Begin.parse_write h
  | process m => exact Process.parse_write h
  | «end» m => exact End.parse_write h

/-- The second uuid that is checked is the first. -/
theorem Frame.ParsesFrom.fromSlice {data : Bytes} {f : Frame} {header : Header}
    (h : f.ParsesFrom F data) (hheader : Header.parseFromBytes F data = some header) :
    Uuid.fromSlice f.uuid = Uuid.fromSlice header.uuid := by
  have hsame : header = f.header := Option.some.inj (hheader.symm.trans h.header)
  rw [hsame]
  rfl

/-! ### The uuid of a dispatch -/

/-- The frame a string carries was read by the schema of its kind, and is handled under
the uuid of the header. -/
theorem frameOf_parsesFrom {data : Bytes} {u : Uuid} {frame : Frame}
    (h : frameOf (.over F) data = some (u, frame)) : frame.ParsesFrom F data ∧
      ∃ header, Header.parseFromBytes F data = some header ∧
        Uuid.fromSlice header.uuid = some u ∧ header.fieldType = frame.kind := by
  unfold frameOf at h
  obtain ⟨header, hheader, h⟩ := Option.bind_eq_some_iff.mp h
  obtain ⟨v, hv, h⟩ := Option.bind_eq_some_iff.mp h
  have hsecond : ∀ frame : Frame, frame.ParsesFrom F data →
      Uuid.fromSlice frame.uuid = some u → Uuid.fromSlice header.uuid = some u := by
    intro frame hparse hu
    rw [← hparse.fromSlice hheader]
    exact hu
  cases ht : header.fieldType with
  | ONESHOT =>
    rw [ht] at h
    obtain ⟨m, hm, heq⟩ := Option.map_eq_some_iff.mp h
    cases heq
    exact ⟨hm, header, hheader, hv, ht⟩
  | BEGIN =>
    rw [ht] at h
    obtain ⟨m, hm, h⟩ := Option.bind_eq_some_iff.mp h
    obtain ⟨w, hw, heq⟩ := Option.map_eq_some_iff.mp h
    cases heq
    exact ⟨hm, header, hheader, hsecond (.begin m) hm hw, ht⟩
  | PROCESS =>
    rw [ht] at h
    obtain ⟨m, hm, h⟩ := Option.bind_eq_some_iff.mp h
    obtain ⟨w, hw, heq⟩ := Option.map_eq_some_iff.mp h
    cases heq
    exact ⟨hm, header, hheader, hsecond (.process m) hm hw, ht⟩
  | END =>
    rw [ht] at h
    obtain ⟨m, hm, h⟩ := Option.bind_eq_some_iff.mp h
    obtain ⟨w, hw, heq⟩ := Option.map_eq_some_iff.mp h
    cases heq
    exact ⟨hm, header, hheader, hsecond (.end m) hm hw, ht⟩

variable {S : Snap} {cancels : ProgressContext → Bool} {contexts : Contexts}

/-- A dispatch stays with the uuid that was checked in the header. -/
theorem dispatch_of_header {data : Bytes} {header : Header} {u : Uuid}
    (hheader : Header.parseFromBytes F data = some header)
    (hu : Uuid.fromSlice header.uuid = some u) :
    let dispatched := messageDispatch (.over F) S cancels contexts data
    (∀ v, v ≠ u → dispatched.1.lookup v = contexts.lookup v) ∧
      ∀ callback ∈ dispatched.2, callback.about u = true := by
  cases hf : frameOf (.over F) data with
  | none =>
    have hsilent : malformed (.over F) data = [] :=
      malformed_nil_iff.mpr ⟨header, u, hheader, hu⟩
    rw [dispatch_malformed hf, hsilent]
    exact ⟨fun v _ => rfl, fun callback hmem => by cases hmem⟩
  | some x =>
    obtain ⟨w, frame⟩ := x
    obtain ⟨-, header', hheader', hw, -⟩ := frameOf_parsesFrom hf
    cases hheader.symm.trans hheader'
    cases hu.symm.trans hw
    rw [dispatch_frame hf]
    refine ⟨fun v hv => ?_, fun callback hmem => ?_⟩
    · rw [Keyed.lookup_step, if_neg hv]
    · rw [callbacks_about S cancels _ u frame callback hmem]
      exact decide_eq_true rfl

/-- **The header view agrees with the full frame**: on what is written, as far as the runtime
reads back what it wrote, on every string that reads as both, and so in every dispatch. -/
theorem header_agrees {F : Wire.Format} {bound : Nat} (hF : F.Inverts bound) :
    (∀ f : Frame, (f.writeToBytes .standard).length < bound →
      Header.parseFromBytes F (f.writeToBytes F) = some ⟨f.fieldType, f.uuid⟩ ∧
        f.ParsesFrom F (f.writeToBytes F)) ∧
    (∀ (data : Bytes) (f : Frame) (header : Header), f.ParsesFrom F data →
      Header.parseFromBytes F data = some header →
      header.fieldType = f.fieldType ∧ header.uuid = f.uuid) ∧
    ∀ (S : Snap) (cancels : ProgressContext → Bool) (contexts : Contexts) (data : Bytes)
      (header : Header) (u : Uuid), Header.parseFromBytes F data = some header →
      Uuid.fromSlice header.uuid = some u →
      let dispatched := messageDispatch (.over F) S cancels contexts data
      (∀ v, v ≠ u → dispatched.1.lookup v = contexts.lookup v) ∧
        ∀ callback ∈ dispatched.2, callback.about u = true := by
  refine ⟨fun f hf => ?_, fun data f header hparse hheader => ?_,
    fun S cancels contexts data header u hheader hu => dispatch_of_header hheader hu⟩
  · have hback : f.ReadsBack F := f.readsBack hF hf
    exact ⟨hback.header, hback.parsesFrom⟩
  · cases hheader.symm.trans hparse.header
    exact ⟨rfl, rfl⟩

/-- Fields out of order and repeated, one of them unknown. -/
def reordered : Bytes :=
  Wire.Format.narrow.write [(2, .bytes [3]), (9, .varint 5), (1, .varint 2),
    (2, .bytes Uuid.nil.bytes), (1, .varint 1)]

theorem header_agrees_reordered :
    let last : Frame := .end ⟨.END, Uuid.nil.bytes⟩
    Header.parseFromBytes .narrow (last.writeToBytes .narrow) = some ⟨.END, Uuid.nil.bytes⟩ ∧
    FieldType.BEGIN = (Frame.begin ⟨.BEGIN, Uuid.nil.bytes, .NONE, 0⟩).fieldType ∧ ∀ v, v ≠ .nil →
      (messageDispatch (.over .narrow) Snap.framed (fun _ => false) ∅ reordered).1.lookup v =
        none := by
  have hbegin : Begin.parseFromBytes .narrow reordered =
      some ⟨.BEGIN, Uuid.nil.bytes, .NONE, 0⟩ := by
    decide +kernel
  have hheader : Header.parseFromBytes .narrow reordered = some ⟨.BEGIN, Uuid.nil.bytes⟩ := by
    decide +kernel
  have hshort : ((Frame.end ⟨.END, Uuid.nil.bytes⟩).writeToBytes .standard).length < 2 ^ 32 := by
    decide +kernel
  obtain ⟨hwritten, hboth, hdispatch⟩ := header_agrees Wire.Format.narrow_inverts
  refine ⟨(hwritten _ hshort).1, (hboth reordered
    (.begin ⟨.BEGIN, Uuid.nil.bytes, .NONE, 0⟩) _ hbegin hheader).1, fun v hv => ?_⟩
  exact ((hdispatch Snap.framed (fun _ => false) ∅ reordered _ .nil hheader rfl).1 v hv).trans
    (Finmap.lookup_empty v)

end Wsmq
