import Wsmq.Connection.Calls

/-! When a call panics.

`set_bandwidth` takes any `usize`, and the bandwidth is the chunk size: with zero the chunk
loop panics, after BEGIN is in the queue and, for a reply, with the table locked. Nothing
else in a call panics (`request_plan`), so every other call comes to its return
(`call_returns_iff`). -/
namespace Wsmq

variable {e : Endpoint} {s t : State} {c : Ticket} {all : Sending} {base : List Event}
variable {S : Snap} {bandwidth : UInt64} {u : Uuid}

/-! ### Which calls set out to panic -/

theorem Occurs.closed {a : Action} {ev : Event} (h : Occurs e s a ev t) (hs : s.task = .ended) :
    t.task = .ended ∧ ev.queuedBy c = none := by
  cases h with
  | queued hcall hopen => exact absurd hs hopen
  | received htask | selected htask | clearWoke _ htask | clearEmptied htask | aborted _ htask =>
    cases hs.symm.trans htask
  | canceled pctx hside hopen => exact absurd hs hopen
  | clearWakePanicked | clearEmptyPanicked | receiverDropped => exact ⟨rfl, rfl⟩
  | _ => exact ⟨hs, rfl⟩

/-- Its own steps bring the call to its end. -/
def Finishes (e : Endpoint) (c : Ticket) (s : State) : Prop :=
  ∃ own t, (∀ a ∈ own, a.OwnOf c) ∧ Runs.run (step e) s own = some t ∧ 2 ≤ (t.calls c).rank

theorem Finishes.before {a : Action} (ha : a.OwnOf c) (hstep : step e s a = some t)
    (h : Finishes e c t) : Finishes e c s := by
  obtain ⟨own, u, hown, hrun, hrank⟩ := h
  refine ⟨a :: own, u, fun b hb => ?_, ?_, hrank⟩
  · obtain rfl | hb := List.mem_cons.mp hb
    · exact ha
    · exact hown b hb
  · rw [Runs.run, hstep]
    exact hrun

end Wsmq
