import Mathlib.Logic.Function.Iterate
import Wsmq.Library.Chunks

/-! The snappy framing format, blocks stored as they are.

A stream is the identifier chunk followed by one chunk for each block of at most
65536 bytes, an empty input giving an empty stream. A stored block carries its
masked CRC-32C. A compressor stores a block whenever compression does not pay;
here every block is stored, so the encoder is a real one on incompressible data
and `decode_encode` holds on all data. The decoder takes any whole number of
chunks. -/
namespace SnappyFrame

/-! ### The checksum -/

def crcBit (c : UInt32) : UInt32 := if c &&& 1 = 1 then (c >>> 1) ^^^ 0x82f63b78 else c >>> 1

def crcByte (c : UInt32) (b : UInt8) : UInt32 := crcBit^[8] (c ^^^ b.toUInt32)

def crc32c (bs : List UInt8) : UInt32 := bs.foldl crcByte 0xffffffff ^^^ 0xffffffff

def masked (bs : List UInt8) : UInt32 :=
  let c := crc32c bs
  ((c >>> 15) ||| (c <<< 17)) + 0xa282ead8

/-- `n` in `k` bytes, little end first. -/
def littleEndian : Nat → Nat → List UInt8
  | 0, _ => []
  | k + 1, n => UInt8.ofNat n :: littleEndian k (n / 256)

theorem littleEndian_length (k n : Nat) : (littleEndian k n).length = k := by
  induction k generalizing n with
  | zero => rfl
  | succ k ih => rw [littleEndian, List.length_cons, ih]

/-! ### Chunks -/

def identifier : List UInt8 := [0xff, 6, 0, 0, 0x73, 0x4e, 0x61, 0x50, 0x70, 0x59]

/-- The data of a stored chunk, after its four-byte header. -/
def body (block : List UInt8) : List UInt8 := littleEndian 4 (masked block).toNat ++ block

def storedChunk (block : List UInt8) : List UInt8 :=
  0x01 :: littleEndian 3 (body block).length ++ body block

def encode (bs : List UInt8) : List UInt8 :=
  if bs = [] then [] else identifier ++ ((Chunks.chunks 65536 bs).map storedChunk).flatten

/-- What one chunk contributes: the identifier nothing, a stored block itself. -/
def chunkData (kind : UInt8) (data : List UInt8) : Option (List UInt8) :=
  if kind = 0xff then if data = identifier.drop 4 then some [] else none
  else if kind = 0x01 then if body (data.drop 4) = data then some (data.drop 4) else none
  else none

def decodeFuel : Nat → List UInt8 → Option (List UInt8)
  | _, [] => some []
  | fuel + 1, kind :: l0 :: l1 :: l2 :: rest =>
    let n := l0.toNat + 256 * (l1.toNat + 256 * l2.toNat)
    if rest.length < n then none
    else (chunkData kind (rest.take n)).bind fun block =>
      (decodeFuel fuel (rest.drop n)).map (block ++ ·)
  | _, _ => none

/-- A stream is empty or starts with the identifier. -/
def decode (bs : List UInt8) : Option (List UInt8) :=
  if bs = [] ∨ bs.take 10 = identifier then decodeFuel bs.length bs else none

theorem body_length (block : List UInt8) : (body block).length = block.length + 4 := by
  rw [body, List.length_append, littleEndian_length]
  omega

theorem chunkData_stored (block : List UInt8) : chunkData 0x01 (body block) = some block := by
  have hdrop : (body block).drop 4 = block := by
    rw [body, List.drop_left' (littleEndian_length 4 _)]
  rw [chunkData, if_neg (by decide), if_pos rfl, hdrop, if_pos rfl]

theorem decodeFuel_stored {block rest : List UInt8} (fuel : Nat) (h : block.length ≤ 65536) :
    decodeFuel (fuel + 1) (storedChunk block ++ rest) =
      (decodeFuel fuel rest).map (block ++ ·) := by
  have hn : (UInt8.ofNat (body block).length).toNat +
      256 * ((UInt8.ofNat ((body block).length / 256)).toNat +
        256 * (UInt8.ofNat ((body block).length / 256 / 256)).toNat) = (body block).length := by
    have := body_length block
    simp only [UInt8.toNat_ofNat']
    omega
  show decodeFuel (fuel + 1) (0x01 :: UInt8.ofNat _ :: UInt8.ofNat _ :: UInt8.ofNat _ ::
    (body block ++ rest)) = _
  simp only [decodeFuel, hn]
  rw [if_neg (by simp), List.take_left' rfl, List.drop_left' rfl, chunkData_stored]
  rfl

theorem decodeFuel_chunks (blocks : List (List UInt8)) (fuel : Nat) (hf : blocks.length ≤ fuel)
    (h : ∀ b ∈ blocks, b.length ≤ 65536) :
    decodeFuel fuel (blocks.map storedChunk).flatten = some blocks.flatten := by
  induction blocks generalizing fuel with
  | nil => cases fuel <;> rfl
  | cons b rest ih =>
    cases fuel with
    | zero => simp at hf
    | succ fuel =>
      rw [List.map_cons, List.flatten_cons, decodeFuel_stored fuel (h b (List.mem_cons_self ..)),
        ih fuel (by simpa using hf) fun c hc => h c (List.mem_cons_of_mem b hc)]
      rfl

/-- There are at most as many chunks as bytes. -/
theorem length_le_flatten (blocks : List (List UInt8)) :
    blocks.length ≤ ((blocks.map storedChunk).flatten).length := by
  induction blocks with
  | nil => exact Nat.le_refl 0
  | cons b rest ih =>
    simp only [List.map_cons, List.flatten_cons, List.length_append, List.length_cons, storedChunk]
    omega

/-- **The decoder inverts the encoder.** -/
theorem decode_encode (bs : List UInt8) : decode (encode bs) = some bs := by
  by_cases hb : bs = []
  · subst hb
    rfl
  · rw [encode, if_neg hb, decode, if_pos (.inr (List.take_left' rfl))]
    have hlen := length_le_flatten (Chunks.chunks 65536 bs)
    have hrest := decodeFuel_chunks (Chunks.chunks 65536 bs)
      (9 + ((Chunks.chunks 65536 bs).map storedChunk).flatten.length) (by omega)
      fun b hb => Chunks.length_le (by decide) hb
    rw [Chunks.flatten_chunks (by decide)] at hrest
    have hid : ∀ (fuel : Nat) (rest : List UInt8),
        decodeFuel (fuel + 1) (identifier ++ rest) = (decodeFuel fuel rest).map ([] ++ ·) := by
      intro fuel rest
      show decodeFuel (fuel + 1) (0xff :: 6 :: 0 :: 0 :: (identifier.drop 4 ++ rest)) = _
      simp only [decodeFuel]
      rw [if_neg (by simp [identifier]), show ((6 : UInt8).toNat + 256 * ((0 : UInt8).toNat +
        256 * (0 : UInt8).toNat)) = (identifier.drop 4).length from rfl, List.take_left' rfl,
        List.drop_left' rfl]
      rfl
    have hfuel : (identifier ++ ((Chunks.chunks 65536 bs).map storedChunk).flatten).length =
        9 + ((Chunks.chunks 65536 bs).map storedChunk).flatten.length + 1 := by
      rw [List.length_append]
      show 10 + _ = _
      omega
    rw [hfuel, hid, hrest]
    rfl

end SnappyFrame
