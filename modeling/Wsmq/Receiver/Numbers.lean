import Wsmq.Receiver.History
import Wsmq.Shared

/-! The numbers of a transfer.

BEGIN announces a length and PROCESS frames are numbered, but the receiver reads
no `seq` and compares nothing with `total_length`, which only goes to the progress
callback. A transfer is delivered as soon as what arrived decodes. `unnumbered`
forgets the numbers, and no delivery depends on what it forgets. -/
namespace Wsmq

/-- A frame without the length it announces and its sequence number. -/
def Frame.unnumbered : Frame → Frame
  | .oneshot m => .oneshot m
  | .begin m => .begin {m with length := 0}
  | .process m => .process {m with seq := 0}
  | .end m => .end m

def MessageContext.unnumbered (c : MessageContext) : MessageContext := {c with totalLength := 0}

namespace Receiver
variable {P : Protobuf} {S : Snap} {cancels : ProgressContext → Bool}

/-- What a string carries up to the numbers. -/
def view (P : Protobuf) (data : Bytes) : Option (Uuid × Frame) :=
  (frameOf P data).map fun f => (f.1, f.2.unnumbered)

/-- The sequence numbers of the PROCESS frames. -/
def seqs (fs : List Frame) : List UInt64 :=
  fs.filterMap fun
    | .process m => some m.seq
    | _ => none

theorem unnumbered_next (c : Option MessageContext) (f : Frame) :
    (MessageContext.next c f).map MessageContext.unnumbered =
      MessageContext.next (c.map MessageContext.unnumbered) f.unnumbered := by
  cases f with
  | oneshot m => rfl
  | begin m => rfl
  | process m => cases c <;> rfl
  | «end» m => rfl

theorem delivered_unnumbered (c : Option MessageContext) (f : Frame) :
    delivered S (c.map MessageContext.unnumbered) f.unnumbered = delivered S c f := by
  cases f with
  | oneshot m => rfl
  | begin m => rfl
  | process m => rfl
  | «end» m => cases c <;> rfl

/-- The same contexts up to the lengths. -/
def Alike (m m' : Contexts) : Prop :=
  ∀ u, (m.lookup u).map MessageContext.unnumbered = (m'.lookup u).map MessageContext.unnumbered

theorem lookup_dispatch (m : Contexts) (data : Bytes) (u : Uuid) :
    ((messageDispatch P S cancels m data).1.lookup u).map MessageContext.unnumbered =
      match view P data with
      | none => (m.lookup u).map MessageContext.unnumbered
      | some f => if u = f.1 then
          MessageContext.next ((m.lookup u).map MessageContext.unnumbered) f.2
        else (m.lookup u).map MessageContext.unnumbered := by
  rw [dispatch_eq, view]
  cases frameOf P data with
  | none => rfl
  | some f =>
    dsimp only [Option.map_some]
    rw [Keyed.lookup_step]
    split
    · exact unnumbered_next _ _
    · rfl

theorem deliveries_view (m : Contexts) (data : Bytes) :
    deliveries (messageDispatch P S cancels m data).2 =
      ((view P data).bind fun f =>
        (delivered S ((m.lookup f.1).map MessageContext.unnumbered) f.2).map
          fun x => (f.1, x)).toList := by
  rw [deliveries_dispatch, view]
  cases frameOf P data with
  | none => rfl
  | some f => simp only [Option.map_some, Option.bind_some, delivered_unnumbered]

theorem alike_dispatch {m m' : Contexts} {data data' : Bytes} (hm : Alike m m')
    (hdata : view P data = view P data') :
    Alike (messageDispatch P S cancels m data).1 (messageDispatch P S cancels m' data').1 ∧
      deliveries (messageDispatch P S cancels m data).2 =
        deliveries (messageDispatch P S cancels m' data').2 := by
  refine ⟨fun u => ?_, ?_⟩
  · rw [lookup_dispatch, lookup_dispatch, hdata, hm u]
  · rw [deliveries_view, deliveries_view, hdata]
    simp only [hm _]

theorem deliveries_congr {strings strings' : List Bytes} {m m' : Contexts}
    (h : strings.map (view P) = strings'.map (view P)) (hm : Alike m m') :
    (feed P S cancels m strings).2.map deliveries =
      (feed P S cancels m' strings').2.map deliveries := by
  induction strings generalizing strings' m m' with
  | nil =>
    cases strings' with
    | nil => rfl
    | cons data' rest' => cases h
  | cons data rest ih =>
    cases strings' with
    | nil => cases h
    | cons data' rest' =>
      obtain ⟨hdata, hrest⟩ := List.cons.inj h
      obtain ⟨halike, hdeliver⟩ := alike_dispatch hm hdata
      rw [feed, feed, List.map_cons, List.map_cons, hdeliver, ih hrest halike]

/-- **What an END delivers**: the decoding of what arrived since BEGIN, whatever
numbers the frames carry. -/
theorem delivery_ignores_numbers {strings strings' : List Bytes}
    (h : strings.map (view P) = strings'.map (view P)) :
    (feed P S cancels ∅ strings).2.map deliveries =
        (feed P S cancels ∅ strings').2.map deliveries ∧
      (∀ u c, (feed P S cancels ∅ strings).1.lookup u = some c →
        ∃ m post, Opens (Keyed.eventsOf u (frames P strings)) m post ∧ c.buffer = payloads post) ∧
      ∀ before data after u m, strings = before ++ data :: after →
        frameOf P data = some (u, .end m) →
        ∃ callbacks, (feed P S cancels ∅ strings).2[before.length]? = some callbacks ∧
          ∀ x, .onMessage u x ∈ callbacks ↔
            ∃ b post, Opens (Keyed.eventsOf u (frames P before)) b post ∧
              b.compression = .SNAPPY ∧ S.decode (payloads post) = some x := by
  refine ⟨deliveries_congr h fun u => rfl, fun u c hc => ?_, ?_⟩
  · obtain ⟨m, post, hopens, rfl⟩ := (feed_lookup strings u c).mp hc
    exact ⟨m, post, hopens, rfl⟩
  · intro before data after u m hsplit hdata
    subst hsplit
    refine ⟨_, feed_at before after data, fun x => ?_⟩
    rw [mem_dispatch]
    constructor
    · intro h
      obtain ⟨frame, hframe, hx⟩ := h
      cases hdata.symm.trans hframe
      obtain ⟨c, hc, hsnappy, hdecode⟩ := delivered_end.mp hx
      obtain ⟨b, post, hopens, rfl⟩ := (feed_lookup before u c).mp hc
      exact ⟨b, post, hopens, hsnappy, hdecode⟩
    · intro h
      obtain ⟨b, post, hopens, hsnappy, hdecode⟩ := h
      exact ⟨_, hdata, delivered_end.mpr
        ⟨_, (feed_lookup before u _).mpr ⟨b, post, hopens, rfl⟩, hsnappy, hdecode⟩⟩

/-! ### A transfer that keeps to none of its numbers -/

/-- The length announced is zero, the only chunk is number three. -/
def misnumbered (length : Nat) (seq : UInt64) : List Frame :=
  [beginFrame .nil length, processFrame .nil seq (SnappyFrame.encode [7])]

def written (fs : List Frame) : List Bytes := fs.map Protobuf.generated.writeToBytes

theorem delivery_ignores_numbers_misnumbered :
    (feed Protobuf.generated Snap.framed (fun _ => false) ∅
        (written (misnumbered 0 3 ++ [endFrame .nil]))).2.map deliveries =
      (feed Protobuf.generated Snap.framed (fun _ => false) ∅
        (written (misnumbered 15 0 ++ [endFrame .nil]))).2.map deliveries :=
  (delivery_ignores_numbers (by decide +kernel)).1

/-- **A misnumbered transfer is delivered**: its chunks are not numbered from zero,
they are longer than announced, and the buffer outgrows `total_length`. -/
theorem misnumbered_delivered :
    Callback.onMessage .nil [7] ∈ (messageDispatch Protobuf.generated Snap.framed (fun _ => false)
        (feed Protobuf.generated Snap.framed (fun _ => false) ∅ (written (misnumbered 0 3))).1
        (Protobuf.generated.writeToBytes (endFrame .nil))).2 ∧
      (∃ m post, Opens (Keyed.eventsOf .nil (frames Protobuf.generated
          (written (misnumbered 0 3)))) m post ∧
        seqs post ≠ (List.range (seqs post).length).map UInt64.ofNat ∧
        (payloads post).length ≠ m.length.toNat) ∧
      ∃ c, (feed Protobuf.generated Snap.framed (fun _ => false) ∅
          (written (misnumbered 0 3))).1.lookup .nil = some c ∧
        c.totalLength.toNat < c.buffer.length := by
  refine ⟨by decide +kernel, ?_, ?_⟩
  · refine ⟨⟨.BEGIN, Uuid.nil.bytes, .SNAPPY, 0⟩,
      [processFrame .nil 3 (SnappyFrame.encode [7])], ⟨⟨[], by decide +kernel⟩, ?_⟩,
      by decide +kernel, by decide +kernel⟩
    intro f hf
    cases List.mem_singleton.mp hf
    decide
  · exact ⟨⟨.SNAPPY, 0, SnappyFrame.encode [7]⟩, by decide +kernel, by decide +kernel⟩

end Receiver
end Wsmq
