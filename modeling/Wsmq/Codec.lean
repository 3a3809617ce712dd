import Wsmq.Protos.Message
import Wsmq.Library.SnappyFrame

/-! What the code takes from other packages: uuids, the protocol-buffer runtime
and the snappy frame encoder and decoder.

The runtime and the compressor are parameters of everything that follows, with
what the code relies on stated as `Inverts`. `Protobuf.over` is the generated code of
`Protos/Message.lean` over the fields of any runtime. To have something to run,
`Protobuf.generated` takes the wire format with lengths of any size, and `Snap.framed`
stores its blocks as they are; both satisfy what is asked of them. -/
namespace Wsmq

/-- A `uuid::Uuid`: sixteen bytes. -/
structure Uuid where
  bytes : Bytes
  length_bytes : bytes.length = 16
deriving DecidableEq

namespace Uuid

def fromSlice (b : Bytes) : Option Uuid := if h : b.length = 16 then some ⟨b, h⟩ else none

def nil : Uuid := ⟨List.replicate 16 0, rfl⟩

@[ext] theorem ext {u v : Uuid} (h : u.bytes = v.bytes) : u = v := by
  cases u
  cases v
  cases h
  rfl

@[simp] theorem fromSlice_bytes (u : Uuid) : fromSlice u.bytes = some u := by
  rw [fromSlice, dif_pos u.length_bytes]

end Uuid

/-- The reader and writer of the five schemas. Writing cannot fail. -/
structure Protobuf where
  writeToBytes : Frame → Bytes
  parseHeader : Bytes → Option Header
  parseOneshot : Bytes → Option Oneshot
  parseBegin : Bytes → Option Begin
  parseProcess : Bytes → Option Process
  parseEnd : Bytes → Option End

/-- Parsing inverts writing, and the header view of a frame is its type and uuid. -/
structure Protobuf.Inverts (P : Protobuf) : Prop where
  header : ∀ f, P.parseHeader (P.writeToBytes f) = some f.header
  oneshot : ∀ m, P.parseOneshot (P.writeToBytes (.oneshot m)) = some m
  begin : ∀ m, P.parseBegin (P.writeToBytes (.begin m)) = some m
  process : ∀ m, P.parseProcess (P.writeToBytes (.process m)) = some m
  «end» : ∀ m, P.parseEnd (P.writeToBytes (.end m)) = some m

/-- The generated code over the fields of a runtime. -/
def Protobuf.over (F : Wire.Format) : Protobuf where
  writeToBytes := Frame.writeToBytes F
  parseHeader := Header.parseFromBytes F
  parseOneshot := Oneshot.parseFromBytes F
  parseBegin := Begin.parseFromBytes F
  parseProcess := Process.parseFromBytes F
  parseEnd := End.parseFromBytes F

/-- Over the wire format with lengths of any size, which inverts on every frame. -/
def Protobuf.generated : Protobuf := .over .standard

/-- A runtime that reads back the fields of every frame inverts the generated writer. -/
theorem Protobuf.over_inverts {F : Wire.Format} (h : ∀ f : Frame, f.ReadsBack F) :
    (Protobuf.over F).Inverts where
  header := fun f => (h f).header
  oneshot := fun m => Oneshot.parse_write (h (.oneshot m))
  begin := fun m => Begin.parse_write (h (.begin m))
  process := fun m => Process.parse_write (h (.process m))
  «end» := fun m => End.parse_write (h (.end m))

theorem Protobuf.generated_inverts : Protobuf.generated.Inverts :=
  Protobuf.over_inverts fun f => f.readsBack (Wire.Format.standard_inverts _) (Nat.lt_succ_self _)

/-- `snap::write::FrameEncoder` over a byte vector and `snap::read::FrameDecoder`
over a slice. The encoder is given the writes it receives, since where it cuts its
blocks may depend on them. -/
structure Snap where
  encode : List Bytes → Option Bytes
  decode : Bytes → Option Bytes

/-- Encoding into a vector does not fail, and decoding gives back what was written. -/
structure Snap.Inverts (S : Snap) : Prop where
  decode_encode : ∀ writes, ∃ c, S.encode writes = some c ∧ S.decode c = some writes.flatten

/-- The framing format with stored blocks. -/
def Snap.framed : Snap where
  encode := fun writes => some (SnappyFrame.encode writes.flatten)
  decode := SnappyFrame.decode

theorem Snap.framed_inverts : Snap.framed.Inverts where
  decode_encode := fun writes => ⟨_, rfl, SnappyFrame.decode_encode writes.flatten⟩

end Wsmq
