import Wsmq.Shared
import Wsmq.Library.Keyed

/-! The table of pending responses and what each operation does to it.

Every operation here is one critical section on `SharedData::responses`. Each
reads and writes the entry of one uuid; `Entry` restates them on that entry
alone. -/
namespace Wsmq

/-- A waker, up to `will_wake`. -/
abbrev Waker := Nat

/-- Of an entry that nobody has polled yet, that waits, and that has its message. -/
inductive Status where
  | none
  | started (waker : Waker)
  | completed (data : Bytes)
deriving DecidableEq

/-- The table behind the mutex. -/
abbrev ResponseStatusMap := HashMap Uuid Status

/-- A message, with the uuid under which it can be replied to. -/
structure Response where
  uuid : Uuid
  data : Bytes
deriving DecidableEq

/-- `Poll<Result<Response>>`. -/
inductive Poll where
  | pending
  | readyOk (response : Response)
  | readyErr (err : Error)
deriving DecidableEq

/-- What the `on_message` of a connection does with a message: the client wakes the
waker it finds, or drops the message, or reports that the table is poisoned; the
server hands it to the user. -/
inductive Outcome where
  | woke (waker : Waker)
  | discarded
  | mutexError
  | handed
deriving DecidableEq

/-- The loop ends with the draw `uuid`: one that is a key already is drawn again. -/
def SharedData.generateUuid (responses : ResponseStatusMap) (uuid : Uuid) :
    Option ResponseStatusMap :=
  if responses.lookup uuid = none then some (responses.insert uuid .none) else none

/-- `reply` and `reply_message` before they send: an entry that is there is kept,
whatever its status. -/
def Response.register (responses : ResponseStatusMap) (uuid : Uuid) : ResponseStatusMap :=
  match responses.lookup uuid with
  | none => responses.insert uuid .none
  | some _ => responses

/-- `poll` with the table locked. A waker is stored once and not replaced. -/
def ResponseFuture.poll (responses : ResponseStatusMap) (uuid : Uuid) (waker : Waker) :
    Poll × ResponseStatusMap :=
  match responses.lookup uuid with
  | some .none => (.pending, responses.insert uuid (.started waker))
  | some (.started _) => (.pending, responses)
  -- `data.drain(..)` empties the entry in place.
  | some (.completed data) => (.readyOk ⟨uuid, data⟩, responses.insert uuid (.completed []))
  | none => (.readyErr .notFound, responses)

/-- The entry goes, whatever its status and whoever else waits for it. -/
def ResponseFuture.drop (responses : ResponseStatusMap) (uuid : Uuid) : ResponseStatusMap :=
  responses.erase uuid

/-- The client's `on_message`. -/
def Client.onMessage (responses : ResponseStatusMap) (uuid : Uuid) (message : Bytes) :
    ResponseStatusMap × Outcome :=
  match responses.lookup uuid with
  | some (.started waker) =>
    ((responses.erase uuid).insert uuid (.completed message), .woke waker)
  | some _ => (responses.erase uuid, .discarded)
  | none => (responses, .discarded)

def Status.waker : Status → Option Waker
  | .started waker => some waker
  | .none => Option.none
  | .completed _ => Option.none

/-- The wakers the first half of `clear` wakes, with the uuid each is stored under.
The order of a hash map's entries is no order. -/
def SharedData.startedWakers (responses : ResponseStatusMap) : Multiset (Uuid × Waker) :=
  responses.entries.filterMap fun entry => entry.2.waker.map fun waker => (entry.1, waker)

/-! ### One entry -/

namespace Entry

def register : Option Status → Option Status
  | none => some .none
  | some status => some status

def poll (waker : Waker) : Option Status → Option Status
  | some .none => some (.started waker)
  | some (.started w) => some (.started w)
  | some (.completed _) => some (.completed [])
  | none => none

/-- What a poll of a future for `uuid` returns. -/
def result (uuid : Uuid) : Option Status → Poll
  | some .none => .pending
  | some (.started _) => .pending
  | some (.completed data) => .readyOk ⟨uuid, data⟩
  | none => .readyErr .notFound

/-- What a message leaves: only an entry that waits is completed. -/
def deliver (message : Bytes) : Option Status → Option Status
  | some (.started _) => some (.completed message)
  | _ => none

/-- Whom a message wakes. -/
def outcome : Option Status → Outcome
  | some (.started waker) => .woke waker
  | _ => .discarded

end Entry

theorem outcome_woke {entry : Option Status} {w : Waker} (h : Entry.outcome entry = .woke w) :
    entry = some (.started w) := by
  rcases entry with - | - | w' | data
  · cases h
  · cases h
  · cases h
    rfl
  · cases h

theorem outcome_ne_handed (entry : Option Status) : Entry.outcome entry ≠ .handed := by
  rcases entry with - | - | - | - <;> exact fun h => by cases h

theorem result_readyOk {u : Uuid} {entry : Option Status} {r : Response}
    (h : Entry.result u entry = .readyOk r) : entry = some (.completed r.data) ∧ r.uuid = u := by
  rcases entry with - | - | w | data <;> cases h
  exact ⟨rfl, rfl⟩

variable (responses : ResponseStatusMap) (u v : Uuid)

theorem lookup_register : (Response.register responses u).lookup v =
    if v = u then Entry.register (responses.lookup v) else responses.lookup v := by
  unfold Response.register
  cases h : responses.lookup u with
  | none =>
    dsimp only
    rw [HashMap.lookup_insert_ite]
    by_cases hv : v = u
    · rw [if_pos hv, if_pos hv, hv, h]
      rfl
    · rw [if_neg hv, if_neg hv]
  | some status =>
    by_cases hv : v = u
    · rw [if_pos hv, hv, h]
      rfl
    · rw [if_neg hv]

theorem generateUuid_eq {responses' : ResponseStatusMap}
    (h : SharedData.generateUuid responses u = some responses') :
    responses.lookup u = none ∧ responses' = Response.register responses u := by
  unfold SharedData.generateUuid at h
  split at h
  · rename_i hnone
    cases h
    exact ⟨hnone, by rw [Response.register, hnone]⟩
  · cases h

theorem lookup_poll (waker : Waker) : (ResponseFuture.poll responses u waker).2.lookup v =
    if v = u then Entry.poll waker (responses.lookup v) else responses.lookup v := by
  unfold ResponseFuture.poll
  by_cases hv : v = u
  · subst hv
    rw [if_pos rfl]
    split <;> simp only [*, Finmap.lookup_insert, Entry.poll]
  · rw [if_neg hv]
    split <;> simp only [Finmap.lookup_insert_of_ne _ hv]

theorem poll_result (waker : Waker) :
    (ResponseFuture.poll responses u waker).1 = Entry.result u (responses.lookup u) := by
  unfold ResponseFuture.poll
  split <;> simp only [*, Entry.result]

theorem lookup_drop : (ResponseFuture.drop responses u).lookup v =
    if v = u then none else responses.lookup v :=
  HashMap.lookup_erase_ite responses v u

theorem lookup_onMessage (x : Bytes) : (Client.onMessage responses u x).1.lookup v =
    if v = u then Entry.deliver x (responses.lookup v) else responses.lookup v := by
  unfold Client.onMessage
  by_cases hv : v = u
  · subst hv
    rw [if_pos rfl]
    split
    · rename_i w hw
      rw [hw]
      exact Finmap.lookup_insert _
    · rename_i status hne hstatus
      rw [hstatus, Finmap.lookup_erase]
      cases status with
      | started w => exact (hne w rfl).elim
      | none => rfl
      | completed data => rfl
    · rename_i hnone
      rw [hnone]
      rfl
  · rw [if_neg hv]
    split
    · rw [Finmap.lookup_insert_of_ne _ hv, Finmap.lookup_erase_ne hv]
    · exact Finmap.lookup_erase_ne hv
    · rfl

theorem onMessage_outcome (x : Bytes) :
    (Client.onMessage responses u x).2 = Entry.outcome (responses.lookup u) := by
  unfold Client.onMessage
  split
  · simp only [*, Entry.outcome]
  · rename_i status hne hstatus
    rw [hstatus]
    cases status with
    | started w => exact (hne w rfl).elim
    | none => rfl
    | completed data => rfl
  · simp only [*, Entry.outcome]

theorem mem_startedWakers (waker : Waker) :
    (u, waker) ∈ SharedData.startedWakers responses ↔
      responses.lookup u = some (.started waker) := by
  rw [SharedData.startedWakers, Multiset.mem_filterMap]
  constructor
  · intro h
    obtain ⟨⟨v, status⟩, hmem, h⟩ := h
    obtain ⟨w, hw, he⟩ := Option.map_eq_some_iff.mp h
    cases status <;> cases hw
    cases he
    exact Finmap.mem_lookup_iff.mpr hmem
  · intro h
    exact ⟨⟨u, .started waker⟩, Finmap.mem_lookup_iff.mp h, rfl⟩

end Wsmq
