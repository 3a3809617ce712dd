import Wsmq.Library.Runs

/-! First-in first-out channels, as what two programs and a wire between them are for.

A channel is what was posted to it and what was taken from it. That the second is a
beginning of the first is a field, so a channel loses nothing, repeats nothing, invents
nothing and keeps the order. Posting is always possible, taking gives the oldest value
in transit. To show that a program implements one, it is enough that each of its steps
moves both ends forward and the taken values stay a beginning of the posted ones
(`run_advance`). -/

@[ext] structure Channel (α : Type) where
  posted : List α
  taken : List α
  taken_prefix : taken <+: posted

namespace Channel
variable {α : Type}

def empty : Channel α := ⟨[], [], List.prefix_refl []⟩

inductive Op (α : Type) where
  | post (x : α)
  | take (x : α)
deriving DecidableEq

def post (c : Channel α) (x : α) : Channel α :=
  ⟨c.posted ++ [x], c.taken, c.taken_prefix.trans (List.prefix_append _ _)⟩

variable [DecidableEq α]

/-- `take x` happens when `x` is the oldest value in transit. -/
def step (c : Channel α) : Op α → Option (Channel α)
  | .post x => some (c.post x)
  | .take x =>
    if h : c.taken ++ [x] <+: c.posted then some ⟨c.posted, c.taken ++ [x], h⟩ else none

theorem run_post (c : Channel α) (xs : List α) :
    ∃ d, Runs.run step c (xs.map .post) = some d ∧ d.posted = c.posted ++ xs ∧
      d.taken = c.taken := by
  induction xs generalizing c with
  | nil => exact ⟨c, rfl, (List.append_nil _).symm, rfl⟩
  | cons x rest ih =>
    obtain ⟨d, hrun, hposted, htaken⟩ := ih (c.post x)
    refine ⟨d, hrun, ?_, htaken⟩
    rw [hposted, post, List.append_assoc]
    rfl

theorem run_take (c : Channel α) (xs : List α) (h : c.taken ++ xs <+: c.posted) :
    ∃ d, Runs.run step c (xs.map .take) = some d ∧ d.posted = c.posted ∧
      d.taken = c.taken ++ xs := by
  induction xs generalizing c with
  | nil => exact ⟨c, rfl, rfl, (List.append_nil _).symm⟩
  | cons x rest ih =>
    have hrest : c.taken ++ [x] ++ rest <+: c.posted := by
      rw [List.append_assoc]
      exact h
    have hx : c.taken ++ [x] <+: c.posted := (List.prefix_append _ _).trans hrest
    obtain ⟨d, hrun, hposted, htaken⟩ := ih ⟨c.posted, c.taken ++ [x], hx⟩ hrest
    refine ⟨d, ?_, hposted, ?_⟩
    · rw [List.map_cons, Runs.run, step, dif_pos hx]
      exact hrun
    · rw [htaken, List.append_assoc]
      rfl

/-- **A channel moves on** to any posted values that extend its own and any taken values
that are a beginning of them. -/
theorem run_advance (c : Channel α) {posts takes : List α}
    (h : c.taken ++ takes <+: c.posted ++ posts) :
    ∃ d, Runs.run step c (posts.map .post ++ takes.map .take) = some d ∧
      d.posted = c.posted ++ posts ∧ d.taken = c.taken ++ takes := by
  obtain ⟨d, hpost, hposted, htaken⟩ := run_post c posts
  rw [← htaken, ← hposted] at h
  obtain ⟨d', htake, hposted', htaken'⟩ := run_take d takes h
  refine ⟨d', ?_, hposted'.trans hposted, ?_⟩
  · rw [Runs.run_append, hpost, Option.bind_some, htake]
  · rw [htaken', htaken]

end Channel
