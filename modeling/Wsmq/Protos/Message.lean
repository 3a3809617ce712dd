import Wsmq.Library.Wire

/-! The messages of `protos/message.proto`, as `src/protos/message.rs` reads and
writes them.

Every message starts with the same two fields, the type and the uuid, so that any
of them can be read as a `Header`. A message is written field by field, a field
that holds its default being left out, and read by `merge_from`: a loop over the
fields of the byte string that assigns the known ones, the last occurrence of a
field winning, and fails on a known field of the wrong wire type. Unknown fields
are accepted; what is kept of them is never looked at again and not modelled.

How a string is split into fields and fields are put on the wire is the runtime's
business, a `Wire.Format`. Its reader is asked for all fields before the loop starts:
where either fails, so does `merge_from`. -/
namespace Wsmq

abbrev Bytes := List UInt8

/-- The enumeration `Type`. -/
inductive FieldType where
  | ONESHOT
  | BEGIN
  | PROCESS
  | END
deriving DecidableEq, Repr

/-- The enumeration `Compression`: how the bytes of a transfer are packed. -/
inductive Compression where
  | NONE
  | SNAPPY
deriving DecidableEq, Repr

/-- What the four messages begin with. Every string is read as this first. -/
structure Header where
  fieldType : FieldType
  uuid : Bytes
deriving DecidableEq

/-- A whole message at once. -/
structure Oneshot where
  fieldType : FieldType
  uuid : Bytes
  message : Bytes
deriving DecidableEq

/-- The announcement of a transfer, with the number of bytes its chunks add up to. -/
structure Begin where
  fieldType : FieldType
  uuid : Bytes
  compression : Compression
  length : UInt64
deriving DecidableEq

/-- One chunk of a transfer. -/
structure Process where
  fieldType : FieldType
  uuid : Bytes
  seq : UInt64
  message : Bytes
deriving DecidableEq

/-- The end of a transfer, at which its bytes are unpacked. -/
structure End where
  fieldType : FieldType
  uuid : Bytes
deriving DecidableEq

/-- One of the four messages that go over the connection. -/
inductive Frame where
  | oneshot (m : Oneshot)
  | begin (m : Begin)
  | process (m : Process)
  | «end» (m : End)
deriving DecidableEq

namespace Frame

def fieldType : Frame → FieldType
  | .oneshot m => m.fieldType
  | .begin m => m.fieldType
  | .process m => m.fieldType
  | .end m => m.fieldType

def uuid : Frame → Bytes
  | .oneshot m => m.uuid
  | .begin m => m.uuid
  | .process m => m.uuid
  | .end m => m.uuid

/-- What is read of the frame first. -/
def header (f : Frame) : Header := ⟨f.fieldType, f.uuid⟩

/-- The type value that belongs to the message, which its field may not hold. -/
def kind : Frame → FieldType
  | .oneshot _ => .ONESHOT
  | .begin _ => .BEGIN
  | .process _ => .PROCESS
  | .end _ => .END

end Frame

/-! ### Enumerations on the wire -/

/-- `value`. -/
def FieldType.value : FieldType → UInt64
  | .ONESHOT => 0
  | .BEGIN => 1
  | .PROCESS => 2
  | .END => 3

/-- `from_i32`, on the low 32 bits of a varint. -/
def FieldType.fromI32 (value : UInt32) : Option FieldType :=
  match value with
  | 0 => some .ONESHOT
  | 1 => some .BEGIN
  | 2 => some .PROCESS
  | 3 => some .END
  | _ => none

def Compression.value : Compression → UInt64
  | .NONE => 0
  | .SNAPPY => 1

/-- `from_i32`, for the two that there are. -/
def Compression.fromI32 (value : UInt32) : Option Compression :=
  match value with
  | 0 => some .NONE
  | 1 => some .SNAPPY
  | _ => none

/-! ### Reading -/

/-- `read_proto3_enum_with_unknown_fields_into`: an unknown value goes to the
unknown fields and leaves the field as it was. -/
def readEnum {α : Type} (fromI32 : UInt32 → Option α) (old : α) : Wire.Value → Option α
  | .varint n => some ((fromI32 n.toUInt32).getD old)
  | _ => none

/-- `read_singular_proto3_bytes_into`. -/
def readBytes : Wire.Value → Option Bytes
  | .bytes b => some b
  | _ => none

/-- `read_uint64`, behind the check of the wire type. -/
def readUint64 : Wire.Value → Option UInt64
  | .varint n => some n
  | _ => none

/-- What `merge_from` does with one field. It checks the wire type of the fields it knows; here
that is the type and the uuid, and what else a message has is unknown to its `Header`. -/
def Header.mergeField (m : Header) : Wire.Field → Option Header
  | (1, v) => (readEnum FieldType.fromI32 m.fieldType v).map fun x => {m with fieldType := x}
  | (2, v) => (readBytes v).map fun x => {m with uuid := x}
  | _ => some m

def Oneshot.mergeField (m : Oneshot) : Wire.Field → Option Oneshot
  | (1, v) => (readEnum FieldType.fromI32 m.fieldType v).map fun x => {m with fieldType := x}
  | (2, v) => (readBytes v).map fun x => {m with uuid := x}
  | (3, v) => (readBytes v).map fun x => {m with message := x}
  | _ => some m

/-- A compression that the schema does not have leaves the field as it was, like a type. -/
def Begin.mergeField (m : Begin) : Wire.Field → Option Begin
  | (1, v) => (readEnum FieldType.fromI32 m.fieldType v).map fun x => {m with fieldType := x}
  | (2, v) => (readBytes v).map fun x => {m with uuid := x}
  | (3, v) => (readEnum Compression.fromI32 m.compression v).map fun x => {m with compression := x}
  | (4, v) => (readUint64 v).map fun x => {m with length := x}
  | _ => some m

/-- `seq` is a number like the length of a BEGIN. Nobody looks at it afterwards. -/
def Process.mergeField (m : Process) : Wire.Field → Option Process
  | (1, v) => (readEnum FieldType.fromI32 m.fieldType v).map fun x => {m with fieldType := x}
  | (2, v) => (readBytes v).map fun x => {m with uuid := x}
  | (3, v) => (readUint64 v).map fun x => {m with seq := x}
  | (4, v) => (readBytes v).map fun x => {m with message := x}
  | _ => some m

def End.mergeField (m : End) : Wire.Field → Option End
  | (1, v) => (readEnum FieldType.fromI32 m.fieldType v).map fun x => {m with fieldType := x}
  | (2, v) => (readBytes v).map fun x => {m with uuid := x}
  | _ => some m

section
variable (F : Wire.Format)

/-- `parse_from_bytes`: `merge_from` into a new message, whose every field is zero
or empty. -/
def parseFromBytes {M : Type} (mergeField : M → Wire.Field → Option M) (new : M) (data : Bytes) :
    Option M :=
  (F.read data).bind fun fs => fs.foldlM mergeField new

/-- An absent type reads as `ONESHOT`, in every message and whatever default the schema names. -/
def Header.parseFromBytes : Bytes → Option Header :=
  Wsmq.parseFromBytes F Header.mergeField ⟨.ONESHOT, []⟩

def Oneshot.parseFromBytes : Bytes → Option Oneshot :=
  Wsmq.parseFromBytes F Oneshot.mergeField ⟨.ONESHOT, [], []⟩

def Begin.parseFromBytes : Bytes → Option Begin :=
  Wsmq.parseFromBytes F Begin.mergeField ⟨.ONESHOT, [], .NONE, 0⟩

def Process.parseFromBytes : Bytes → Option Process :=
  Wsmq.parseFromBytes F Process.mergeField ⟨.ONESHOT, [], 0, []⟩

def End.parseFromBytes : Bytes → Option End :=
  Wsmq.parseFromBytes F End.mergeField ⟨.ONESHOT, []⟩

end

/-! ### Writing -/

/-- `write_enum`, `write_uint64`: a zero is not written. -/
def varintField (number : Nat) (n : UInt64) : List Wire.Field :=
  if n = 0 then [] else [(number, .varint n)]

/-- `write_bytes`: an empty byte string is not written. -/
def bytesField (number : Nat) (b : Bytes) : List Wire.Field :=
  if b = [] then [] else [(number, .bytes b)]

/-- The fields of a message, as `write_to_with_cached_sizes` writes them. -/
def Frame.fields : Frame → List Wire.Field
  | .oneshot m => varintField 1 m.fieldType.value ++ bytesField 2 m.uuid ++ bytesField 3 m.message
  | .begin m => varintField 1 m.fieldType.value ++ bytesField 2 m.uuid ++
      varintField 3 m.compression.value ++ varintField 4 m.length
  | .process m => varintField 1 m.fieldType.value ++ bytesField 2 m.uuid ++
      varintField 3 m.seq ++ bytesField 4 m.message
  | .end m => varintField 1 m.fieldType.value ++ bytesField 2 m.uuid

/-- `write_to_bytes`. It cannot fail: proto3 messages have no required fields. -/
def Frame.writeToBytes (F : Wire.Format) (f : Frame) : Bytes := F.write f.fields

/-! ### The reader inverts the writer -/

theorem FieldType.value_eq_zero {t : FieldType} (h : t.value = 0) : t = .ONESHOT := by
  cases t <;> first | rfl | exact absurd h (by decide)

theorem Compression.value_eq_zero {c : Compression} (h : c.value = 0) : c = .NONE := by
  cases c <;> first | rfl | exact absurd h (by decide)

theorem plain_varintField {k : Nat} (n : UInt64) (hpos : 0 < k) (hlt : k < 2 ^ 29) :
    ∀ f ∈ varintField k n, Wire.Plain f := by
  intro f hf
  unfold varintField at hf
  split at hf
  · cases hf
  · cases List.mem_singleton.mp hf
    exact ⟨hpos, hlt, .inl ⟨n, rfl⟩⟩

theorem plain_bytesField {k : Nat} (b : Bytes) (hpos : 0 < k) (hlt : k < 2 ^ 29) :
    ∀ f ∈ bytesField k b, Wire.Plain f := by
  intro f hf
  unfold bytesField at hf
  split at hf
  · cases hf
  · cases List.mem_singleton.mp hf
    exact ⟨hpos, hlt, .inr ⟨b, rfl⟩⟩

theorem Frame.plain_fields (f : Frame) : ∀ x ∈ f.fields, Wire.Plain x := by
  cases f <;> simp only [Frame.fields, List.mem_append] <;> intro x hx
  all_goals
    rcases hx with hx | hx <;> try rcases hx with hx | hx <;> try rcases hx with hx | hx
  all_goals
    first
    | exact plain_varintField _ (by decide) (by decide) x hx
    | exact plain_bytesField _ (by decide) (by decide) x hx

/-- The runtime reads back the fields of a frame. -/
def Frame.ReadsBack (F : Wire.Format) (f : Frame) : Prop :=
  F.read (f.writeToBytes F) = some f.fields

theorem Frame.readsBack {F : Wire.Format} {bound : Nat} (hF : F.Inverts bound) {f : Frame}
    (h : Wire.size f.fields < bound) : f.ReadsBack F :=
  hF f.fields f.plain_fields h

theorem foldlM_append_some {M : Type} {merge : M → Wire.Field → Option M} {a b : List Wire.Field}
    {m n p : M} (ha : a.foldlM merge m = some n) (hb : b.foldlM merge n = some p) :
    (a ++ b).foldlM merge m = some p := by
  rw [List.foldlM_append, ha]
  exact hb

/-- A number left out because it is zero reads back as zero. -/
theorem foldlM_varintField {M : Type} {merge : M → Wire.Field → Option M} {m m' : M} {k : Nat}
    {n : UInt64} (hzero : n = 0 → m = m') (h : merge m (k, .varint n) = some m') :
    (varintField k n).foldlM merge m = some m' := by
  unfold varintField
  split
  · rw [hzero ‹_›]
    rfl
  · rw [List.foldlM_cons, h]
    rfl

theorem foldlM_bytesField {M : Type} {merge : M → Wire.Field → Option M} {m m' : M} {k : Nat}
    {b : Bytes} (hempty : b = [] → m = m') (h : merge m (k, .bytes b) = some m') :
    (bytesField k b).foldlM merge m = some m' := by
  unfold bytesField
  split
  · rw [hempty ‹_›]
    rfl
  · rw [List.foldlM_cons, h]
    rfl

/-- What every schema that starts with the type and the uuid makes of these two. -/
theorem foldlM_typeField {M : Type} {merge : M → Wire.Field → Option M} {m : M}
    (set : FieldType → M) (t : FieldType) (hnew : m = set .ONESHOT)
    (h : merge m (1, .varint t.value) = some (set t)) :
    (varintField 1 t.value).foldlM merge m = some (set t) :=
  foldlM_varintField (fun h0 => by rw [hnew, FieldType.value_eq_zero h0]) h

variable {F : Wire.Format}

theorem Frame.ReadsBack.header {f : Frame} (h : f.ReadsBack F) :
    Header.parseFromBytes F (f.writeToBytes F) = some f.header := by
  rw [Header.parseFromBytes, Wsmq.parseFromBytes, h, Option.bind_some]
  have htype : (varintField 1 f.fieldType.value).foldlM Header.mergeField ⟨.ONESHOT, []⟩ =
      some ⟨f.fieldType, []⟩ :=
    foldlM_typeField (fun t => (⟨t, []⟩ : Header)) _ rfl (by cases f.fieldType <;> rfl)
  have huuid : (bytesField 2 f.uuid).foldlM Header.mergeField ⟨f.fieldType, []⟩ =
      some f.header :=
    foldlM_bytesField (fun h => by rw [Frame.header, h]) rfl
  have hboth := foldlM_append_some htype huuid
  -- The fields past the second are unknown to `Header`.
  have hrest : ∀ (k : Nat) (n : UInt64), (varintField (k + 3) n).foldlM Header.mergeField f.header =
      some f.header := fun k n => foldlM_varintField (fun _ => rfl) rfl
  have hrest' : ∀ (k : Nat) (b : Bytes), (bytesField (k + 3) b).foldlM Header.mergeField f.header =
      some f.header := fun k b => foldlM_bytesField (fun _ => rfl) rfl
  cases f with
  | oneshot m => exact foldlM_append_some hboth (hrest' 0 _)
  | begin m => exact foldlM_append_some (foldlM_append_some hboth (hrest 0 _)) (hrest 1 _)
  | process m => exact foldlM_append_some (foldlM_append_some hboth (hrest 0 _)) (hrest' 1 _)
  | «end» m => exact hboth

theorem Oneshot.parse_write {m : Oneshot} (h : (Frame.oneshot m).ReadsBack F) :
    Oneshot.parseFromBytes F ((Frame.oneshot m).writeToBytes F) = some m := by
  obtain ⟨t, u, x⟩ := m
  rw [Oneshot.parseFromBytes, Wsmq.parseFromBytes, h, Option.bind_some]
  refine foldlM_append_some (n := ⟨t, u, []⟩) (foldlM_append_some (n := ⟨t, [], []⟩) ?_ ?_) ?_
  · exact foldlM_typeField (fun t => (⟨t, [], []⟩ : Oneshot)) t rfl (by cases t <;> rfl)
  · exact foldlM_bytesField (fun h => by rw [show u = [] from h]) rfl
  · exact foldlM_bytesField (fun h => by rw [show x = [] from h]) rfl

theorem Begin.parse_write {m : Begin} (h : (Frame.begin m).ReadsBack F) :
    Begin.parseFromBytes F ((Frame.begin m).writeToBytes F) = some m := by
  obtain ⟨t, u, c, n⟩ := m
  rw [Begin.parseFromBytes, Wsmq.parseFromBytes, h, Option.bind_some]
  refine foldlM_append_some (n := ⟨t, u, c, 0⟩) (foldlM_append_some (n := ⟨t, u, .NONE, 0⟩)
    (foldlM_append_some (n := ⟨t, [], .NONE, 0⟩) ?_ ?_) ?_) ?_
  · exact foldlM_typeField (fun t => (⟨t, [], .NONE, 0⟩ : Begin)) t rfl (by cases t <;> rfl)
  · exact foldlM_bytesField (fun h => by rw [show u = [] from h]) rfl
  · exact foldlM_varintField (fun h => by rw [Compression.value_eq_zero (c := c) h])
      (by cases c <;> rfl)
  · exact foldlM_varintField (fun h => by rw [show n = 0 from h]) rfl

theorem Process.parse_write {m : Process} (h : (Frame.process m).ReadsBack F) :
    Process.parseFromBytes F ((Frame.process m).writeToBytes F) = some m := by
  obtain ⟨t, u, n, x⟩ := m
  rw [Process.parseFromBytes, Wsmq.parseFromBytes, h, Option.bind_some]
  refine foldlM_append_some (n := ⟨t, u, n, []⟩) (foldlM_append_some (n := ⟨t, u, 0, []⟩)
    (foldlM_append_some (n := ⟨t, [], 0, []⟩) ?_ ?_) ?_) ?_
  · exact foldlM_typeField (fun t => (⟨t, [], 0, []⟩ : Process)) t rfl (by cases t <;> rfl)
  · exact foldlM_bytesField (fun h => by rw [show u = [] from h]) rfl
  · exact foldlM_varintField (fun h => by rw [show n = 0 from h]) rfl
  · exact foldlM_bytesField (fun h => by rw [show x = [] from h]) rfl

theorem End.parse_write {m : End} (h : (Frame.end m).ReadsBack F) :
    End.parseFromBytes F ((Frame.end m).writeToBytes F) = some m := by
  obtain ⟨t, u⟩ := m
  rw [End.parseFromBytes, Wsmq.parseFromBytes, h, Option.bind_some]
  refine foldlM_append_some (n := ⟨t, []⟩) ?_ ?_
  · exact foldlM_typeField (fun t => (⟨t, []⟩ : End)) t rfl (by cases t <;> rfl)
  · exact foldlM_bytesField (fun h => by rw [show u = [] from h]) rfl

end Wsmq
