import Mathlib.Data.Finmap
import Mathlib.Algebra.BigOperators.Group.Finset.Basic

/-! Finite maps as families of independent machines.

A `HashMap` is a finite map up to the order of its entries. `set` writes or
erases one key. When every event of a history carries a key and steps only the
value under that key (`Keyed.step`), the value a key holds after the history is
what that key's own events make of the value it held before (`lookup_run`): the
machines do not see each other. `total` sums a weight over the values, and writing one
key changes it by what that key weighs (`total_set`). -/

abbrev HashMap (α β : Type) := Finmap (fun _ : α => β)

namespace HashMap
variable {α β : Type} [DecidableEq α]

theorem lookup_insert_ite (m : HashMap α β) (a b : α) (v : β) :
    (m.insert b v).lookup a = if a = b then some v else m.lookup a := by
  by_cases h : a = b
  · subst h
    rw [if_pos rfl, Finmap.lookup_insert]
  · rw [if_neg h, Finmap.lookup_insert_of_ne m h]

theorem lookup_erase_ite (m : HashMap α β) (a b : α) :
    (m.erase b).lookup a = if a = b then none else m.lookup a := by
  by_cases h : a = b
  · subst h
    rw [if_pos rfl, Finmap.lookup_erase]
  · rw [if_neg h, Finmap.lookup_erase_ne h]

/-- Write a key, or erase it. -/
def set (m : HashMap α β) (a : α) : Option β → HashMap α β
  | none => m.erase a
  | some v => m.insert a v

theorem lookup_set (m : HashMap α β) (a b : α) (v : Option β) :
    (set m b v).lookup a = if a = b then v else m.lookup a := by
  cases v with
  | none => exact lookup_erase_ite m a b
  | some v => exact lookup_insert_ite m a b v

/-- The map with all other keys erased. -/
def only (a : α) (m : HashMap α β) : HashMap α β := set ∅ a (m.lookup a)

theorem lookup_only (a b : α) (m : HashMap α β) :
    (only a m).lookup b = if b = a then m.lookup a else none := by
  rw [only, lookup_set, Finmap.lookup_empty]

@[simp] theorem lookup_only_self (a : α) (m : HashMap α β) :
    (only a m).lookup a = m.lookup a := by
  rw [lookup_only, if_pos rfl]

theorem eq_only {a : α} {m m' : HashMap α β} (h : m'.lookup a = m.lookup a)
    (hother : ∀ b, b ≠ a → m'.lookup b = none) : m' = only a m := by
  apply Finmap.ext_lookup
  intro b
  rw [lookup_only]
  by_cases hb : b = a
  · rw [if_pos hb, hb, h]
  · rw [if_neg hb, hother b hb]

theorem only_congr {a : α} {m m' : HashMap α β} (h : m.lookup a = m'.lookup a) :
    only a m = only a m' := by
  rw [only, only, h]

/-- What works on one key works on the map of that key. -/
theorem only_comm {a : α} {f : HashMap α β → HashMap α β} {g : Option β → Option β}
    (hf : ∀ m b, (f m).lookup b = if b = a then g (m.lookup b) else m.lookup b)
    (m : HashMap α β) : f (only a m) = only a (f m) := by
  refine eq_only ?_ fun b hb => ?_
  · rw [hf, hf, if_pos rfl, if_pos rfl, lookup_only_self]
  · rw [hf, if_neg hb, lookup_only, if_neg hb]

@[simp] theorem only_empty (a : α) : only a (∅ : HashMap α β) = ∅ :=
  (eq_only rfl fun _ _ => Finmap.lookup_empty _).symm

/-! ### Weights -/

/-- The weight of what the keys in `F` hold. -/
def weighs (w : β → Nat) (F : Finset α) (m : HashMap α β) : Nat :=
  ∑ a ∈ F, (m.lookup a).elim 0 w

def total (w : β → Nat) (m : HashMap α β) : Nat := weighs w m.keys m

/-- Other keys weigh nothing. -/
theorem weighs_of_subset {w : β → Nat} {F : Finset α} {m : HashMap α β} (h : m.keys ⊆ F) :
    weighs w F m = total w m := by
  refine (Finset.sum_subset h fun a _ ha => ?_).symm
  rw [Finmap.lookup_eq_none.mpr (mt Finmap.mem_keys.mpr ha)]
  rfl

theorem keys_set_subset (m : HashMap α β) (a : α) (v : Option β) :
    (set m a v).keys ⊆ insert a m.keys := by
  intro b hb
  rw [Finmap.mem_keys, Finmap.mem_iff] at hb
  obtain ⟨x, hx⟩ := hb
  rw [lookup_set] at hx
  rw [Finset.mem_insert, Finmap.mem_keys, Finmap.mem_iff]
  split at hx
  · exact .inl ‹_›
  · exact .inr ⟨x, hx⟩

/-- **One key is written**: the total changes by what it held and holds. -/
theorem total_set (w : β → Nat) (m : HashMap α β) (a : α) (v : Option β) :
    total w (set m a v) + (m.lookup a).elim 0 w = total w m + v.elim 0 w := by
  have ha : a ∈ insert a m.keys := Finset.mem_insert_self ..
  have hothers : ∑ b ∈ (insert a m.keys).erase a, ((set m a v).lookup b).elim 0 w =
      ∑ b ∈ (insert a m.keys).erase a, (m.lookup b).elim 0 w :=
    Finset.sum_congr rfl fun b hb => by rw [lookup_set, if_neg (Finset.ne_of_mem_erase hb)]
  rw [← weighs_of_subset (keys_set_subset m a v),
    ← weighs_of_subset (Finset.subset_insert a m.keys), weighs, weighs,
    ← Finset.add_sum_erase _ _ ha, ← Finset.add_sum_erase _ (fun b => (m.lookup b).elim 0 w) ha,
    hothers, lookup_set, if_pos rfl]
  omega

end HashMap

namespace Keyed
variable {κ σ ε : Type} [DecidableEq κ]

/-- One event: the value under its key steps, the rest of the map stays. -/
def step (f : Option σ → ε → Option σ) (m : HashMap κ σ) (event : κ × ε) : HashMap κ σ :=
  HashMap.set m event.1 (f (m.lookup event.1) event.2)

def run (f : Option σ → ε → Option σ) (m : HashMap κ σ) (events : List (κ × ε)) : HashMap κ σ :=
  events.foldl (step f) m

/-- The events of one key. -/
def eventsOf (k : κ) (events : List (κ × ε)) : List ε :=
  events.filterMap fun event => if event.1 = k then some event.2 else none

theorem eventsOf_append (k : κ) (a b : List (κ × ε)) :
    eventsOf k (a ++ b) = eventsOf k a ++ eventsOf k b :=
  List.filterMap_append

theorem mem_eventsOf {k : κ} {e : ε} {events : List (κ × ε)} :
    e ∈ eventsOf k events ↔ (k, e) ∈ events := by
  rw [eventsOf, List.mem_filterMap]
  constructor
  · intro h
    obtain ⟨⟨l, e'⟩, hmem, h⟩ := h
    dsimp only at h
    split at h
    · rename_i hl
      cases hl
      cases h
      exact hmem
    · cases h
  · intro h
    exact ⟨_, h, if_pos rfl⟩

theorem eventsOf_ne_nil {k : κ} {events : List (κ × ε)} :
    eventsOf k events ≠ [] ↔ k ∈ events.map Prod.fst := by
  rw [Ne, eventsOf, List.filterMap_eq_nil_iff, List.mem_map]
  constructor
  · intro h
    simp only [not_forall] at h
    obtain ⟨event, hmem, hne⟩ := h
    refine ⟨event, hmem, ?_⟩
    by_contra hk
    exact hne (if_neg hk)
  · rintro ⟨event, hmem, rfl⟩ h
    have hnone := h event hmem
    simp at hnone

/-- A place in the history of a key is a place in the whole history. -/
theorem eventsOf_split {k : κ} {events : List (κ × ε)} {pre post : List ε} {e : ε}
    (h : eventsOf k events = pre ++ e :: post) :
    ∃ a b, events = a ++ (k, e) :: b ∧ eventsOf k a = pre ∧ eventsOf k b = post := by
  obtain ⟨a, rest, rfl, hpre, hrest⟩ := List.filterMap_eq_append_iff.mp h
  obtain ⟨skipped, event, b, rfl, hskipped, hevent, hpost⟩ := List.filterMap_eq_cons_iff.mp hrest
  obtain ⟨l, e'⟩ := event
  dsimp only at hevent
  split at hevent
  · rename_i hl
    cases hl
    cases hevent
    refine ⟨a ++ skipped, b, by rw [List.append_assoc], ?_, hpost⟩
    have hnil : eventsOf k skipped = [] := List.filterMap_eq_nil_iff.mpr hskipped
    rw [eventsOf_append, hnil, List.append_nil]
    exact hpre
  · cases hevent

variable (f : Option σ → ε → Option σ)

theorem lookup_step (m : HashMap κ σ) (event : κ × ε) (k : κ) :
    (step f m event).lookup k = if k = event.1 then f (m.lookup k) event.2 else m.lookup k := by
  rw [step, HashMap.lookup_set]
  by_cases h : k = event.1
  · rw [if_pos h, if_pos h, h]
  · rw [if_neg h, if_neg h]

/-- An event that leaves its value as it was leaves the map. -/
theorem step_same (m : HashMap κ σ) (event : κ × ε)
    (h : f (m.lookup event.1) event.2 = m.lookup event.1) : step f m event = m := by
  apply Finmap.ext_lookup
  intro k
  rw [lookup_step]
  split
  · rename_i hk
    rw [hk, h]
  · rfl

theorem eventsOf_cons_self (k : κ) (e : ε) (rest : List (κ × ε)) :
    eventsOf k ((k, e) :: rest) = e :: eventsOf k rest := by
  simp [eventsOf]

theorem eventsOf_cons_ne {k l : κ} (h : l ≠ k) (e : ε) (rest : List (κ × ε)) :
    eventsOf k ((l, e) :: rest) = eventsOf k rest := by
  simp [eventsOf, h]

/-- **The machines do not see each other**: under one key, a history does what
its events for that key do. -/
theorem lookup_run (m : HashMap κ σ) (events : List (κ × ε)) (k : κ) :
    (run f m events).lookup k = (eventsOf k events).foldl f (m.lookup k) := by
  induction events generalizing m with
  | nil => rfl
  | cons event rest ih =>
    obtain ⟨l, e⟩ := event
    show (run f (step f m (l, e)) rest).lookup k = _
    rw [ih, lookup_step]
    by_cases h : k = l
    · subst h
      rw [if_pos rfl, eventsOf_cons_self]
      rfl
    · rw [if_neg h, eventsOf_cons_ne (Ne.symm h)]

end Keyed
