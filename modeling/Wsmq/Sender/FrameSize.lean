import Wsmq.Shared

/-! How long the queued frames are.

A binary message becomes one WebSocket frame, and an end without a `WebSocketConfig`
refuses frames above 16 MiB. The default bandwidth is the same number, but it is
compared with the payload alone: the type, the uuid, the tag and the length of a frame
come on top, 23 bytes for a ONESHOT of that size and 25 for a first PROCESS.
`frames_fit_iff` says for which requests the envelope still fits. -/
namespace Wsmq

/-- `DEFAULT_BANDWIDTH`, the same on both ends. -/
def defaultBandwidth : UInt64 := 1024 * 1024 * 16

/-- The longest frame the peer accepts. -/
def maxFrameSize : Nat := 16 * 2 ^ 20

/-- The peer reads the frame, as this runtime writes it; a longer one fails its connection. -/
def Protobuf.Fits (P : Protobuf) (f : Frame) : Prop := (P.writeToBytes f).length ≤ maxFrameSize

instance (P : Protobuf) (f : Frame) : Decidable (P.Fits f) :=
  inferInstanceAs (Decidable ((P.writeToBytes f).length ≤ maxFrameSize))

def Frame.Fits (f : Frame) : Prop := Protobuf.generated.Fits f

theorem defaultBandwidth_toNat : defaultBandwidth.toNat = maxFrameSize := by decide

theorem Frame.fits_iff {f : Frame} : f.Fits ↔ Wire.size f.fields ≤ maxFrameSize := Iff.rfl

variable {S : Snap} {uuid : Uuid}

/-! ### The length of a field -/

theorem varintField_size {k : Nat} (hk : k < 16) (n : UInt64) :
    Wire.size (varintField k n) =
      if n = 0 then 0 else 1 + (Wire.writeVarint n.toNat).length := by
  unfold varintField
  split
  · rfl
  · show (Wire.writeField .full _ ++ []).length = _
    rw [List.append_nil, Wire.writeField_length hk]
    rfl

theorem bytesField_size {k : Nat} (hk : k < 16) (b : Bytes) :
    Wire.size (bytesField k b) =
      if b = [] then 0 else 1 + (Wire.writeVarint b.length).length + b.length := by
  unfold bytesField
  split
  · rfl
  · show (Wire.writeField .full _ ++ []).length = _
    rw [List.append_nil, Wire.writeField_length hk]
    show 1 + (Wire.writeVarint b.length ++ b).length = _
    rw [List.length_append, Nat.add_assoc]

theorem uuidField_size (uuid : Uuid) : Wire.size (bytesField 2 uuid.bytes) = 18 := by
  have hne : uuid.bytes ≠ [] := by
    rw [← List.length_pos_iff, uuid.length_bytes]
    decide
  rw [bytesField_size (by decide), if_neg hne, uuid.length_bytes,
    Wire.writeVarint_length_one (by decide)]

/-- A length that is near the limit takes four bytes. -/
theorem payloadField_size {k : Nat} (hk : k < 16) (b : Bytes) (r : Nat) (hr : r ≤ 100) :
    r + Wire.size (bytesField k b) ≤ maxFrameSize ↔ b.length + r + 5 ≤ maxFrameSize := by
  rw [bytesField_size hk]
  unfold maxFrameSize
  split
  · subst b
    simp only [List.length_nil]
    omega
  · by_cases hsmall : b.length < 128 ^ 3
    · have hle := (Wire.writeVarint_length_le (by decide)).mpr hsmall
      omega
    · by_cases hlarge : b.length < 128 ^ 4
      · rw [Wire.writeVarint_length (k := 2) (by omega) hlarge]
        omega
      · omega

/-! ### The length of a frame -/

theorem oneshot_fits (message : Bytes) :
    (oneshotFrame uuid message).Fits ↔ message.length + 23 ≤ maxFrameSize := by
  unfold oneshotFrame
  rw [Frame.fits_iff, Frame.fields, Wire.size_append, Wire.size_append,
    varintField_size (by decide), uuidField_size]
  exact payloadField_size (by decide) message 18 (by decide)

/-- The first PROCESS, whose `seq` is not written. -/
theorem process_fits (chunk : Bytes) :
    (processFrame uuid 0 chunk).Fits ↔ chunk.length + 25 ≤ maxFrameSize := by
  unfold processFrame
  rw [Frame.fits_iff, Frame.fields, Wire.size_append, Wire.size_append, Wire.size_append,
    varintField_size (by decide), uuidField_size]
  exact payloadField_size (by decide) chunk 20 (by decide)

theorem begin_fits (length : Nat) : (beginFrame uuid length).Fits := by
  unfold beginFrame
  rw [Frame.fits_iff, Frame.fields, Wire.size_append, Wire.size_append, Wire.size_append,
    uuidField_size, varintField_size (by decide), varintField_size (by decide),
    varintField_size (by decide)]
  have hlength : (Wire.writeVarint (UInt64.ofNat length).toNat).length ≤ 10 :=
    (Wire.writeVarint_length_le (by decide)).mpr
      ((UInt64.ofNat length).toNat_lt.trans (by decide))
  have htype : (Wire.writeVarint FieldType.BEGIN.value.toNat).length = 1 := by decide
  have hcompression : (Wire.writeVarint Compression.SNAPPY.value.toNat).length = 1 := by decide
  dsimp only
  rw [htype, hcompression]
  unfold maxFrameSize
  split <;> split <;> split <;> omega

theorem end_fits : (endFrame uuid).Fits := by
  unfold endFrame
  rw [Frame.fits_iff, Frame.fields, Wire.size_append, uuidField_size]
  show Wire.size (varintField 1 FieldType.END.value) + 18 ≤ maxFrameSize
  decide

/-! ### The frames of a call -/

theorem sendBytes_fits (message : Bytes) :
    (∀ f ∈ (SharedData.sendBytes uuid message).frames, f.Fits) ↔
      message.length + 23 ≤ maxFrameSize := by
  rw [← @oneshot_fits uuid]
  constructor
  · intro h
    exact h _ (List.mem_cons_self ..)
  · intro h f hf
    cases List.mem_singleton.mp hf
    exact h

/-- What is longer than a frame can hold has a first chunk that is, and what is not is
one chunk. -/
theorem sendLargeBytes_fits (c : Bytes) :
    (∀ f ∈ (SharedData.sendLargeBytes defaultBandwidth uuid c).frames, f.Fits) ↔
      c.length + 25 ≤ maxFrameSize := by
  have hpos : 0 < maxFrameSize := by decide
  rw [sendLargeBytes_frames (by decide), defaultBandwidth_toNat]
  constructor
  · intro h
    by_cases hc : c = []
    · subst hc
      decide
    · rw [Chunks.chunks_cons hpos hc] at h
      have hfirst : (processFrame uuid 0 (c.take maxFrameSize)).Fits :=
        h _ (by simp [processFrames])
      rw [process_fits] at hfirst
      rw [List.length_take] at hfirst
      omega
  · intro h f hf
    have hchunks : ∀ f ∈ processFrames uuid 0 (Chunks.chunks maxFrameSize c), f.Fits := by
      by_cases hc : c = []
      · subst hc
        intro f hf
        cases hf
      · intro f hf
        rw [Chunks.chunks_cons hpos hc, List.drop_eq_nil_of_le (by omega),
          List.take_of_length_le (by omega)] at hf
        cases List.mem_singleton.mp hf
        exact (process_fits c).mpr h
    simp only [List.mem_cons, List.mem_append,
      List.not_mem_nil, or_false] at hf
    rcases hf with rfl | hf | rfl
    · exact begin_fits _
    · exact hchunks f hf
    · exact end_fits

/-- A call that compresses its message, or fails where that fails. -/
theorem compressed_fits {sending : Sending} {compressed : Option Bytes}
    (hsome : ∀ c, compressed = some c →
      sending = SharedData.sendLargeBytes defaultBandwidth uuid c)
    (hnone : compressed = none → sending.frames = []) :
    (∀ f ∈ sending.frames, f.Fits) ↔ ∀ c, compressed = some c → c.length + 25 ≤ maxFrameSize := by
  cases hcompressed : compressed with
  | none =>
    rw [hnone hcompressed]
    exact iff_of_true (fun f hf => by cases hf) fun c hc => by cases hc
  | some c =>
    rw [hsome c hcompressed, sendLargeBytes_fits]
    simp only [Option.some.injEq, forall_eq']

/-- The envelope fits: 23 bytes less than the bandwidth for what is sent whole, 25 for
what it is compressed to otherwise. -/
def LeavesRoom (S : Snap) : Request → Prop
  | .bytes m =>
    if m.length ≤ maxFrameSize then m.length + 23 ≤ maxFrameSize
    else ∀ c, S.encode [m] = some c → c.length + 25 ≤ maxFrameSize
  | .message m => ∀ writes, m.writes = some writes →
    if m.computeSize.toNat ≤ maxFrameSize then writes.flatten.length + 23 ≤ maxFrameSize
    else ∀ c, S.encode writes = some c → c.length + 25 ≤ maxFrameSize

theorem Request.fits_iff (S : Snap) (uuid : Uuid) (request : Request) :
    (∀ f ∈ (request.sending S defaultBandwidth uuid).frames, f.Fits) ↔ LeavesRoom S request := by
  cases request with
  | bytes m =>
    rw [Request.sending, SharedData.send, LeavesRoom, defaultBandwidth_toNat]
    by_cases hm : m.length ≤ maxFrameSize
    · rw [if_neg (by omega), if_pos hm, sendBytes_fits]
    · rw [if_pos (by omega), if_neg hm]
      apply compressed_fits
      · intro c hc
        rw [hc]
      · intro hnone
        rw [hnone]
        rfl
  | message m =>
    have hsize : m.computeSize > defaultBandwidth.toUInt32 ↔ maxFrameSize < m.computeSize.toNat :=
      UInt32.lt_iff_toNat_lt
    rw [Request.sending, SharedData.sendMessage, LeavesRoom]
    cases m.writes with
    | none =>
      refine iff_of_true (fun f hf => ?_) fun writes hwrites => by cases hwrites
      split at hf <;> cases hf
    | some writes =>
      simp only [Option.some.injEq, forall_eq']
      by_cases hm : m.computeSize.toNat ≤ maxFrameSize
      · rw [if_neg (by rw [hsize]; omega), if_pos hm, sendBytes_fits]
      · rw [if_pos (by rw [hsize]; omega), if_neg hm]
        apply compressed_fits
        · intro c hc
          rw [hc]
        · intro hnone
          rw [hnone]
          rfl

/-- **The frames of a call fit** exactly when its request leaves room for the envelope. -/
theorem frames_fit_iff (S : Snap) (uuid : Uuid) (request : Request) :
    (∀ f ∈ (request.sending S defaultBandwidth uuid).frames,
      (f.writeToBytes .standard).length ≤ maxFrameSize) ↔ LeavesRoom S request :=
  request.fits_iff S uuid

/-- **A message of the bandwidth's own size does not fit**: `send` queues it whole. -/
theorem largest_oneshot_too_long :
    ∃ f ∈ (Request.sending Snap.framed defaultBandwidth .nil
      (.bytes (List.replicate (16 * 2 ^ 20) 0))).frames,
        ¬ (f.writeToBytes .standard).length ≤ maxFrameSize := by
  refine ⟨oneshotFrame .nil (List.replicate (16 * 2 ^ 20) 0), ?_, fun h => ?_⟩
  · rw [Request.sending, SharedData.send, List.length_replicate, if_neg (by decide)]
    exact List.mem_cons_self ..
  · have hfits : (oneshotFrame .nil (List.replicate (16 * 2 ^ 20) 0)).Fits := h
    rw [oneshot_fits, List.length_replicate] at hfits
    exact absurd hfits (by decide)

end Wsmq
