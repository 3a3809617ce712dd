import Wsmq.Connection.Cancel

/-! What a peer can make an end hold.

Contexts come and go as the peer likes: it may begin any number of transfers, end none of them
and send chunks without end. Nothing is compared with the announced length. Still what an end
keeps is never more than what it was sent: a frame adds at most its chunk to one buffer and at
most one context (`dispatch_buffered`, `dispatch_contexts`), so at any moment of any connection
the buffers hold no more bytes, and the map no more contexts, than were received
(`memory_bounded`). -/
namespace Wsmq

/-- A chunk is part of the string that brings it. -/
def Protobuf.Bounded (P : Protobuf) : Prop :=
  ∀ data m, P.parseProcess data = some m → m.message.length ≤ data.length

theorem Process.parse_length {F : Wire.Format} (hF : F.Bounded) {data : Bytes} {m : Process}
    (h : Process.parseFromBytes F data = some m) : m.message.length ≤ data.length := by
  obtain ⟨fs, hfs, h⟩ := Option.bind_eq_some_iff.mp h
  rw [← Runs.run_eq_foldlM] at h
  refine Runs.run_invariant (P := fun m : Process => m.message.length ≤ data.length)
    (Nat.zero_le _) (fun m f m' hmem hm hstep => ?_) h
  unfold Process.mergeField at hstep
  split at hstep
  case h_4 v =>
    obtain ⟨x, hx, rfl⟩ := Option.map_eq_some_iff.mp hstep
    cases v <;> cases hx
    exact hF hfs hmem
  case h_5 =>
    cases hstep
    exact hm
  all_goals
    obtain ⟨x, -, rfl⟩ := Option.map_eq_some_iff.mp hstep
    exact hm

theorem Protobuf.over_bounded {F : Wire.Format} (hF : F.Bounded) : (Protobuf.over F).Bounded :=
  fun _ _ => Process.parse_length hF

theorem Protobuf.generated_bounded : Protobuf.generated.Bounded :=
  Protobuf.over_bounded (Wire.Format.coded_bounded .full)

/-- The bytes in all buffers. -/
def buffered (contexts : Contexts) : Nat := HashMap.total (fun c => c.buffer.length) contexts

variable {P : Protobuf} {S : Snap} {cancels : ProgressContext → Bool} {contexts : Contexts}
  {data : Bytes}

/-! ### One string -/

/-- The bytes the frame adds to a buffer. -/
def Frame.chunk : Frame → Bytes
  | .process m => m.message
  | _ => []

theorem next_buffer (context : Option MessageContext) (frame : Frame) :
    (MessageContext.next context frame).elim 0 (fun c => c.buffer.length) ≤
      context.elim 0 (fun c => c.buffer.length) + frame.chunk.length := by
  cases frame with
  | oneshot m => exact Nat.le_refl _
  | begin m | «end» m => exact Nat.zero_le _
  | process m =>
    cases context with
    | none => exact Nat.zero_le _
    | some c => exact (List.length_append ..).le

theorem frameOf_chunk (hP : P.Bounded) {u : Uuid} {frame : Frame}
    (h : frameOf P data = some (u, frame)) : frame.chunk.length ≤ data.length := by
  unfold frameOf at h
  obtain ⟨header, -, h⟩ := Option.bind_eq_some_iff.mp h
  obtain ⟨v, -, h⟩ := Option.bind_eq_some_iff.mp h
  split at h
  · obtain ⟨x, -, hx⟩ := Option.map_eq_some_iff.mp h
    cases hx
    exact Nat.zero_le _
  all_goals
    obtain ⟨x, hparse, hx⟩ := Option.bind_eq_some_iff.mp h
    obtain ⟨w, -, hw⟩ := Option.map_eq_some_iff.mp hx
    cases hw
  · exact Nat.zero_le _
  · exact hP data x hparse
  · exact Nat.zero_le _

theorem dispatch_buffered (hP : P.Bounded) :
    buffered (messageDispatch P S cancels contexts data).1 ≤ buffered contexts + data.length := by
  rw [dispatch_eq]
  split
  · exact Nat.le_add_right _ _
  · rename_i u frame hframe
    have htotal := HashMap.total_set (fun c : MessageContext => c.buffer.length) contexts u
      (MessageContext.next (contexts.lookup u) frame)
    have hnext := next_buffer (contexts.lookup u) frame
    have hchunk := frameOf_chunk hP hframe
    show HashMap.total _ (HashMap.set contexts u (MessageContext.next (contexts.lookup u) frame)) ≤
      HashMap.total _ contexts + data.length
    omega

theorem dispatch_contexts :
    (messageDispatch P S cancels contexts data).1.keys.card ≤ contexts.keys.card + 1 := by
  rw [dispatch_eq]
  split
  · exact Nat.le_succ _
  · rename_i u frame _
    have hkeys := HashMap.keys_set_subset contexts u (MessageContext.next (contexts.lookup u) frame)
    exact (Finset.card_le_card hkeys).trans (Finset.card_insert_le _ _)

/-! ### Any peer -/

variable {e : Endpoint} {s : State}

/-- **An end never holds more than it was sent**, whatever its peer sends. -/
theorem memory_bounded (hP : e.protobuf.Bounded)
    (h : Runs.Reachable (step e) (fun _ _ => True) .init s) :
    buffered s.contexts ≤ ((receivedData s.log).map List.length).sum ∧
      s.contexts.keys.card ≤ (receivedData s.log).length := by
  have hs := history_of_reachable h
  clear h
  induction hs with
  | init => exact ⟨Nat.zero_le _, Nat.zero_le _⟩
  | @event s t a ev hs ha hev ih =>
    obtain ⟨hbuffered, hcontexts⟩ := ih
    rw [hev.log, receivedData_append, List.map_append, List.sum_append, List.length_append]
    cases hev with
    | @received m cancels htask =>
      have hdata : receivedData [.received m.intoData] = [m.intoData] := rfl
      rw [hdata]
      exact ⟨(dispatch_buffered hP).trans (Nat.add_le_add_right hbuffered _),
        dispatch_contexts.trans (Nat.add_le_add_right hcontexts 1)⟩
    | _ => exact ⟨hbuffered.trans (Nat.le_add_right _ _), hcontexts.trans (Nat.le_add_right _ _)⟩

/-- A transfer that is announced as empty, and a chunk of it. -/
theorem memory_bounded_chunk : ∃ s,
    Runs.Reachable (step exampleServer) (fun _ _ => True) .init s ∧ buffered s.contexts = 3 ∧
    buffered s.contexts ≤ ((receivedData s.log).map List.length).sum ∧
    s.contexts.keys.card ≤ (receivedData s.log).length := by
  have hview : (Runs.run (step exampleServer) .init ([beginFrame .nil 0,
      processFrame .nil 0 [1, 2, 3]].map fun frame =>
        .receive (.binary (Protobuf.generated.writeToBytes frame)) fun _ => false)).map
      (fun s => buffered s.contexts) = some 3 := by
    decide +kernel
  obtain ⟨s, hs, hbuffered⟩ := reachable_of_view _ hview
  exact ⟨s, hs, hbuffered, memory_bounded Protobuf.generated_bounded hs⟩

end Wsmq
