import Wsmq.Connection.Posts
import Wsmq.Sender.FrameSize

/-! Both ends of a connection and the socket between them.

Each end is the state machine of `Connection.lean`. What it queues, its task writes to the
socket in order (`rx.map(Ok).forward(write)`), and the other end's task reads it in the same
order, as binary messages: the library queues nothing else and sends no close frame. The
socket loses nothing while both hold it; either end may stop at any point, and then what was
not written, or not read, stays so. A frame above the limit of the other end is never read: the
read stream fails there and the task leaves its loop, which is the action `select`.

`asked` is what each call was asked to send. No step reads it. -/
namespace Wsmq

/-- The other end. -/
def Side.peer : Side → Side
  | .client => .server
  | .server => .client

/-- The two ends use the same packages, each with its own bandwidth. -/
structure Link where
  bandwidth : Side → UInt64
  protobuf : Protobuf
  snap : Snap

structure LinkState where
  ends : Side → State
  /-- How many frames of its queue an end has written. -/
  written : Side → Nat
  /-- How many frames of the other end's an end has read. -/
  read : Side → Nat
  asked : Side → Ticket → Option Request

def LinkState.init : LinkState := ⟨fun _ => .init, fun _ => 0, fun _ => 0, fun _ _ => none⟩

inductive LinkAction where
  /-- Anything an end does but write and read. -/
  | act (side : Side) (a : Action)
  | forward (side : Side)
  | receive (side : Side) (cancels : ProgressContext → Bool)

namespace Link

def endpoint (l : Link) (side : Side) : Endpoint := ⟨side, l.bandwidth side, l.protobuf, l.snap⟩

/-- A step of one end, or of the socket between them. -/
def step (l : Link) (s : LinkState) : LinkAction → Option LinkState
  | .act side a =>
    match a with
    | .receive _ _ => none
    | a => (Wsmq.step (l.endpoint side) (s.ends side) a).map fun t =>
        {s with
          ends := Function.update s.ends side t
          asked := Function.update s.asked side (a.asks (s.asked side))}
  | .forward side =>
    if (s.ends side).task = .running ∧ s.written side < (s.ends side).queue.length then
      some {s with written := Function.update s.written side (s.written side + 1)}
    else none
  | .receive side cancels =>
    if s.read side < s.written side.peer then
      (s.ends side.peer).queue[s.read side]?.bind fun frame =>
        if l.protobuf.Fits frame then
          (Wsmq.step (l.endpoint side) (s.ends side)
            (.receive (.binary (l.protobuf.writeToBytes frame)) cancels)).map fun t =>
              {s with
                ends := Function.update s.ends side t
                read := Function.update s.read side (s.read side + 1)}
        else none
    else none

/-- `generate_uuid` draws a uuid that no call of the client has had. -/
def Fresh (s : LinkState) : LinkAction → Prop
  | .act side a => FreshUuid (s.ends side) a
  | _ => True

/-- The states of the runs in which every uuid drawn is fresh. -/
abbrev Reachable (l : Link) : LinkState → Prop := Runs.Reachable l.step Fresh .init

/-! ### A step of the link is a step of an end -/

/-- The ways a link can move. -/
inductive Moves (l : Link) (s : LinkState) : LinkAction → LinkState → Prop where
  | act {side a t} (ha : ¬ a.isReceive)
      (hstep : Wsmq.step (l.endpoint side) (s.ends side) a = some t) :
      Moves l s (.act side a) {s with
        ends := Function.update s.ends side t
        asked := Function.update s.asked side (a.asks (s.asked side))}
  | forward {side} (htask : (s.ends side).task = .running)
      (hmore : s.written side < (s.ends side).queue.length) :
      Moves l s (.forward side)
        {s with written := Function.update s.written side (s.written side + 1)}
  | receive {side cancels frame t} (hwritten : s.read side < s.written side.peer)
      (hframe : (s.ends side.peer).queue[s.read side]? = some frame)
      (hfits : l.protobuf.Fits frame)
      (hstep : Wsmq.step (l.endpoint side) (s.ends side)
        (.receive (.binary (l.protobuf.writeToBytes frame)) cancels) = some t) :
      Moves l s (.receive side cancels) {s with
        ends := Function.update s.ends side t
        read := Function.update s.read side (s.read side + 1)}

variable {l : Link} {s t : LinkState} {a : LinkAction}

theorem step_moves (h : l.step s a = some t) : Moves l s a t := by
  cases a with
  | act side a =>
    have hact : ∀ a : Action, ¬ a.isReceive →
        (Wsmq.step (l.endpoint side) (s.ends side) a).map (fun t => {s with
          ends := Function.update s.ends side t
          asked := Function.update s.asked side (a.asks (s.asked side))}) = some t →
        Moves l s (.act side a) t := by
      intro a ha h
      obtain ⟨u, hu, rfl⟩ := Option.map_eq_some_iff.mp h
      exact .act ha hu
    cases a with
    | receive m cancels => cases h
    | _ => exact hact _ id h
  | forward side =>
    rw [step] at h
    split at h <;> cases h
    rename_i hc
    exact .forward hc.1 hc.2
  | receive side cancels =>
    rw [step] at h
    split at h
    · obtain ⟨frame, hframe, h⟩ := Option.bind_eq_some_iff.mp h
      split at h
      · obtain ⟨u, hu, rfl⟩ := Option.map_eq_some_iff.mp h
        exact .receive ‹_› hframe ‹_› hu
      · cases h
    · cases h

theorem moves_step (h : Moves l s a t) : l.step s a = some t := by
  cases h with
  | @act side a t ha hstep =>
    cases a with
    | receive => exact absurd trivial ha
    | _ => exact congrArg (Option.map _) hstep
  | forward htask hmore => rw [step, if_pos ⟨htask, hmore⟩]
  | receive hwritten hframe hfits hstep =>
    rw [step, if_pos hwritten, hframe, Option.bind_some, if_pos hfits, hstep]
    rfl

/-- What the frames read from the socket keep in step with. -/
structure InOrder (s : LinkState) : Prop where
  read_le : ∀ side, s.read side ≤ s.written side.peer
  written_le : ∀ side, s.written side ≤ (s.ends side).queue.length

theorem queue_prefix {e : Endpoint} {s t : State} {a : Action} (h : Wsmq.step e s a = some t) :
    s.queue <+: t.queue := by
  refine step_events (P := fun u => s.queue <+: u.queue) (List.prefix_refl _) ?_ h
  intro u ev v hu hev
  rw [hev.queue]
  exact hu.trans (List.prefix_append _ _)

/-- An end moves by its own steps only. -/
theorem Moves.end_step (h : Moves l s a t) (side : Side) :
    t.ends side = s.ends side ∨
      ∃ b, Wsmq.step (l.endpoint side) (s.ends side) b = some (t.ends side) ∧
        (b.isReceive ∨ a = .act side b) := by
  cases h with
  | @act side' b u ha hstep =>
    by_cases hside : side = side'
    · subst hside
      refine .inr ⟨b, ?_, .inr rfl⟩
      simpa using hstep
    · exact .inl (Function.update_of_ne hside _ _)
  | forward => exact .inl rfl
  | @receive side' cancels frame u hwritten hframe hfits hstep =>
    by_cases hside : side = side'
    · subst hside
      refine .inr ⟨.receive (.binary (l.protobuf.writeToBytes frame)) cancels, ?_, .inl trivial⟩
      simpa using hstep
    · exact .inl (Function.update_of_ne hside _ _)

theorem Moves.queue_prefix (h : Moves l s a t) (side : Side) :
    (s.ends side).queue <+: (t.ends side).queue := by
  obtain heq | ⟨b, hb, -⟩ := h.end_step side
  · rw [heq]
  · exact Link.queue_prefix hb

theorem InOrder.step (hs : InOrder s) (h : Moves l s a t) : InOrder t := by
  have hlength : ∀ side, (s.ends side).queue.length ≤ (t.ends side).queue.length :=
    fun side => (h.queue_prefix side).length_le
  cases h with
  | act ha hstep =>
    exact ⟨hs.read_le, fun side => (hs.written_le side).trans (hlength side)⟩
  | @forward side htask hmore =>
    refine ⟨fun side' => ?_, fun side' => ?_⟩
    · refine (hs.read_le side').trans ?_
      dsimp only
      rw [Function.update_apply]
      split
      · rename_i heq
        rw [heq]
        exact Nat.le_succ _
      · exact Nat.le_refl _
    · dsimp only
      rw [Function.update_apply]
      split
      · rename_i heq
        rw [heq]
        exact hmore
      · exact hs.written_le side'
  | @receive side cancels frame u hwritten hframe hfits hstep =>
    refine ⟨fun side' => ?_, fun side' => (hs.written_le side').trans (hlength side')⟩
    dsimp only
    rw [Function.update_apply]
    split
    · rename_i heq
      rw [heq]
      exact hwritten
    · exact hs.read_le side'

theorem Reachable.inOrder (h : l.Reachable s) : InOrder s :=
  h.invariant ⟨fun _ => Nat.le_refl 0, fun _ => Nat.le_refl 0⟩
    fun _ _ _ _ hs _ hstep => hs.step (step_moves hstep)

/-- **Each end of a link is a connection**: what holds of every run of one end holds of it. -/
theorem Reachable.end_history (h : l.Reachable s) (side : Side) :
    History (l.endpoint side) FreshUuid (s.ends side) := by
  apply h.invariant History.init
  intro s a t _ ih ha hstep
  obtain heq | ⟨b, hb, hcause⟩ := (step_moves hstep).end_step side
  · rwa [heq]
  · rcases step_occurs hb with ⟨ev, hev⟩ | ⟨hreceive, hoccur⟩
    · refine .event ih ?_ hev
      obtain hreceive | rfl := hcause
      · exact .inr hreceive
      · exact .inl ha
    · exact ih.occur hreceive hoccur

end Link
end Wsmq
