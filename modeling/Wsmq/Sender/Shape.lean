import Wsmq.Shared

/-! The shape of what one `send` queues.

A message of at most the bandwidth goes as it is, in one ONESHOT. A longer one is
compressed, and the stream goes as BEGIN with its length, one PROCESS for every
bandwidth's worth of it, numbered from zero, and END (`send_frames`). `length` and `seq`
are `u64`s, which hold the length of any vector (`CutInto.exact`). -/
namespace Wsmq

/-- The stream `c` as it is sent: announced by `b`, cut into the payloads of `ps`. -/
structure CutInto (size : Nat) (c : Bytes) (b : Begin) (ps : List Process) : Prop where
  compression : b.compression = .SNAPPY
  announced : b.length = UInt64.ofNat c.length
  /-- The length over the size, rounded up. -/
  count : ps.length = (c.length + size - 1) / size
  numbered : ps.map Process.seq = (List.range ps.length).map UInt64.ofNat
  nonempty : ∀ p ∈ ps, p.message ≠ []
  full : ∀ p ∈ ps.dropLast, p.message.length = size
  joined : (ps.map Process.message).flatten = c
  exact : c.length < 2 ^ 64 → b.length.toNat = c.length ∧
    ps.map (fun p => p.seq.toNat) = List.range ps.length

/-- What `send` queues for the message `m`. -/
structure SendShape (S : Snap) (bandwidth : UInt64) (uuid : Uuid) (m : Bytes) (fs : List Frame) :
    Prop where
  own : ∀ f ∈ fs, f.uuid = uuid.bytes ∧ f.fieldType = f.kind
  short : m.length ≤ bandwidth.toNat → ∃ o : Oneshot, fs = [.oneshot o] ∧ o.message = m
  long : bandwidth.toNat < m.length → ∃ c b ps en, S.encode [m] = some c ∧
    fs = .begin b :: (ps.map .process ++ [.end en]) ∧ CutInto bandwidth.toNat c b ps

/-! ### The chunk loop -/

/-- The messages of `processFrames`. -/
def processes (uuid : Uuid) : UInt64 → List Bytes → List Process
  | _, [] => []
  | seq, chunk :: chunks => ⟨.PROCESS, uuid.bytes, seq, chunk⟩ :: processes uuid (seq + 1) chunks

variable {S : Snap} {bandwidth : UInt64} {uuid : Uuid} {seq : UInt64} {chunks : List Bytes}

theorem map_processes :
    (processes uuid seq chunks).map Frame.process = processFrames uuid seq chunks := by
  induction chunks generalizing seq with
  | nil => rfl
  | cons chunk rest ih =>
    rw [processes, List.map_cons, ih]
    rfl

theorem processes_messages : (processes uuid seq chunks).map Process.message = chunks := by
  induction chunks generalizing seq with
  | nil => rfl
  | cons chunk rest ih => rw [processes, List.map_cons, ih]

theorem processes_length : (processes uuid seq chunks).length = chunks.length := by
  rw [← List.length_map (f := Process.message), processes_messages]

/-- The counter goes up by one with every chunk. -/
theorem processes_seqs : (processes uuid seq chunks).map Process.seq =
    (List.range chunks.length).map fun i => seq + UInt64.ofNat i := by
  induction chunks generalizing seq with
  | nil => rfl
  | cons chunk rest ih =>
    rw [processes, List.map_cons, ih, List.length_cons, List.range_succ_eq_map, List.map_cons,
      List.map_map]
    congr 1
    · simp
    · apply List.map_congr_left
      intro i _
      simp only [Function.comp_apply, Nat.succ_eq_add_one, UInt64.ofNat_add]
      rw [UInt64.add_assoc, UInt64.add_comm 1]
      rfl

/-- **The chunk loop**, for a stream of any length. -/
theorem cutInto_chunks (uuid : Uuid) (hb : bandwidth ≠ 0) (c : Bytes) :
    CutInto bandwidth.toNat c ⟨.BEGIN, uuid.bytes, .SNAPPY, UInt64.ofNat c.length⟩
      (processes uuid 0 (Chunks.chunks bandwidth.toNat c)) := by
  have hpos := toNat_pos hb
  have hcount := Chunks.length_chunks_le hpos c
  generalize hps : processes uuid 0 (Chunks.chunks bandwidth.toNat c) = ps
  have hmessages : ps.map Process.message = Chunks.chunks bandwidth.toNat c :=
    hps ▸ processes_messages
  have hlen : ps.length = (Chunks.chunks bandwidth.toNat c).length := hps ▸ processes_length
  have hseqs : ps.map Process.seq = (List.range ps.length).map UInt64.ofNat := by
    rw [hlen, ← hps, processes_seqs]
    simp
  refine ⟨rfl, rfl, ?_, hseqs, fun p hp => ?_, fun p hp => ?_, ?_, fun hlength => ⟨?_, ?_⟩⟩
  · rw [hlen, Chunks.length_chunks hpos]
  · apply Chunks.ne_nil hpos
    rw [← hmessages]
    exact List.mem_map_of_mem hp
  · apply Chunks.length_of_mem_dropLast hpos
    rw [← hmessages, ← List.map_dropLast]
    exact List.mem_map_of_mem hp
  · rw [hmessages, Chunks.flatten_chunks hpos]
  · exact UInt64.toNat_ofNat_of_lt' hlength
  · -- There are no more chunks than bytes, so the counter does not wrap.
    have hnats := congrArg (List.map UInt64.toNat) hseqs
    rw [List.map_map, List.map_map] at hnats
    refine hnats.trans ?_
    rw [List.map_congr_left (g := id), List.map_id]
    intro i hi
    rw [List.mem_range, hlen] at hi
    have hbound : i < 2 ^ 64 := by omega
    exact UInt64.toNat_ofNat_of_lt' hbound

/-! ### A call -/

/-- **What `send` queues**, when it comes to its end. -/
theorem send_frames (hb : bandwidth ≠ 0) {m : Bytes}
    (hok : (SharedData.send S bandwidth uuid m).result = .ok) :
    SendShape S bandwidth uuid m (SharedData.send S bandwidth uuid m).frames := by
  by_cases hlong : bandwidth.toNat < m.length
  · rw [SharedData.send, if_pos hlong] at hok ⊢
    cases hc : S.encode [m] with
    | none =>
      rw [hc] at hok
      cases hok
    | some c =>
      dsimp only
      rw [sendLargeBytes_frames hb]
      refine ⟨(Transfer.chunked c.length (Chunks.chunks bandwidth.toNat c)).mem,
        fun hshort => absurd hlong (Nat.not_lt.mpr hshort),
        fun _ => ⟨c, _, _, ⟨.END, uuid.bytes⟩, hc, ?_, cutInto_chunks uuid hb c⟩⟩
      rw [map_processes]
      rfl
  · rw [SharedData.send, if_neg hlong]
    exact ⟨(Transfer.oneshot m).mem, fun _ => ⟨_, rfl, rfl⟩, fun h => absurd h hlong⟩

end Wsmq
