import Mathlib.Data.List.Basic

/-! Cutting a list into chunks of a given positive size, the last one possibly
shorter. The recursion is on a bound for the number of chunks, so that it
computes; with a positive size the length of the list is such a bound
(`chunks_cons`). -/
namespace Chunks
variable {α : Type}

def chunksFuel (n : Nat) : Nat → List α → List (List α)
  | _, [] => []
  | 0, _ :: _ => []
  | fuel + 1, x :: xs => (x :: xs).take n :: chunksFuel n fuel ((x :: xs).drop n)

def chunks (n : Nat) (l : List α) : List (List α) := chunksFuel n l.length l

theorem chunksFuel_eq {n fuel : Nat} (hn : 0 < n) {l : List α} (h : l.length ≤ fuel) :
    chunksFuel n fuel l = chunks n l := by
  suffices ∀ (fuel fuel' : Nat) (l : List α), l.length ≤ fuel → l.length ≤ fuel' →
      chunksFuel n fuel l = chunksFuel n fuel' l from this _ _ _ h (Nat.le_refl _)
  intro fuel
  induction fuel with
  | zero =>
    intro fuel' l hl _
    have : l = [] := by simpa using hl
    subst this
    cases fuel' <;> rfl
  | succ fuel ih =>
    intro fuel' l hl hl'
    cases l with
    | nil => cases fuel' <;> rfl
    | cons x xs =>
      cases fuel' with
      | zero => simp at hl'
      | succ fuel' =>
        simp only [List.length_cons] at hl hl'
        have hd : ((x :: xs).drop n).length ≤ xs.length := by
          simp only [List.length_drop, List.length_cons]
          omega
        simp only [chunksFuel, ih fuel' ((x :: xs).drop n) (by omega) (by omega)]

theorem chunks_cons {n : Nat} (hn : 0 < n) {l : List α} (hl : l ≠ []) :
    chunks n l = l.take n :: chunks n (l.drop n) := by
  cases l with
  | nil => exact absurd rfl hl
  | cons x xs =>
    show (x :: xs).take n :: chunksFuel n xs.length ((x :: xs).drop n) = _
    rw [chunksFuel_eq hn]
    simp only [List.length_drop, List.length_cons]
    omega

/-- What holds of a cut list, by induction on the cuts. -/
theorem chunks_induction {n : Nat} (hn : 0 < n) {P : List α → List (List α) → Prop} (l : List α)
    (hnil : P [] [])
    (hcons : ∀ l, l ≠ [] → P (l.drop n) (chunks n (l.drop n)) →
      P l (l.take n :: chunks n (l.drop n))) : P l (chunks n l) := by
  induction hk : l.length using Nat.strongRecOn generalizing l with
  | ind k ih =>
    by_cases hl : l = []
    · subst hl
      exact hnil
    · rw [chunks_cons hn hl]
      refine hcons l hl (ih _ ?_ _ rfl)
      have := List.length_pos_iff.mpr hl
      rw [List.length_drop]
      omega

/-- The chunks put back together are the list. -/
theorem flatten_chunks {n : Nat} (hn : 0 < n) (l : List α) : (chunks n l).flatten = l := by
  refine chunks_induction hn (P := fun l cs => cs.flatten = l) l rfl fun l _ ih => ?_
  rw [List.flatten_cons, ih, List.take_append_drop]

/-- No chunk is longer than the size. -/
theorem length_le {n : Nat} (hn : 0 < n) {l c : List α} (h : c ∈ chunks n l) : c.length ≤ n := by
  suffices ∀ c ∈ chunks n l, c.length ≤ n from this c h
  refine chunks_induction hn (P := fun _ cs => ∀ c ∈ cs, c.length ≤ n) l (by simp) fun l _ ih => ?_
  intro c hc
  rcases List.mem_cons.mp hc with rfl | hc
  · rw [List.length_take]
    omega
  · exact ih c hc

/-- No chunk is empty. -/
theorem ne_nil {n : Nat} (hn : 0 < n) {l c : List α} (h : c ∈ chunks n l) : c ≠ [] := by
  suffices ∀ c ∈ chunks n l, c ≠ [] from this c h
  refine chunks_induction hn (P := fun _ cs => ∀ c ∈ cs, c ≠ []) l (by simp) fun l hl ih => ?_
  intro c hc
  rcases List.mem_cons.mp hc with rfl | hc
  · intro hnil
    have := List.length_pos_iff.mpr hl
    have := congrArg List.length hnil
    rw [List.length_take, List.length_nil] at this
    omega
  · exact ih c hc

/-- There are as many chunks as the length takes, rounded up. -/
theorem length_chunks {n : Nat} (hn : 0 < n) (l : List α) :
    (chunks n l).length = (l.length + n - 1) / n := by
  refine chunks_induction hn (P := fun l cs => cs.length = (l.length + n - 1) / n) l ?_
    fun l hl ih => ?_
  · rw [List.length_nil, List.length_nil, Nat.div_eq_of_lt (by omega)]
  · have hpos := List.length_pos_iff.mpr hl
    rw [List.length_cons, ih, List.length_drop]
    by_cases hlong : n ≤ l.length
    · rw [show l.length + n - 1 = (l.length - n + n - 1) + n by omega, Nat.add_div_right _ hn]
    · rw [show l.length + n - 1 = (l.length - 1) + n by omega, Nat.add_div_right _ hn,
        Nat.div_eq_of_lt (by omega), Nat.div_eq_of_lt (by omega)]

theorem length_chunks_le {n : Nat} (hn : 0 < n) (l : List α) : (chunks n l).length ≤ l.length := by
  refine chunks_induction hn (P := fun l cs => cs.length ≤ l.length) l (Nat.le_refl _)
    fun l hl ih => ?_
  have hpos := List.length_pos_iff.mpr hl
  rw [List.length_drop] at ih
  rw [List.length_cons]
  omega

/-- Every chunk but the last is full. -/
theorem length_of_mem_dropLast {n : Nat} (hn : 0 < n) {l c : List α}
    (h : c ∈ (chunks n l).dropLast) : c.length = n := by
  suffices ∀ c ∈ (chunks n l).dropLast, c.length = n from this c h
  refine chunks_induction hn (P := fun _ cs => ∀ c ∈ cs.dropLast, c.length = n) l (by simp)
    fun l hl ih => ?_
  intro c hc
  by_cases hrest : l.drop n = []
  · rw [hrest] at hc
    cases hc
  · have hmore : chunks n (l.drop n) ≠ [] := by
      rw [chunks_cons hn hrest]
      exact List.cons_ne_nil _ _
    rw [List.dropLast_cons_of_ne_nil hmore] at hc
    obtain rfl | hc := List.mem_cons.mp hc
    · rw [List.drop_eq_nil_iff] at hrest
      rw [List.length_take]
      omega
    · exact ih c hc

end Chunks
