import Mathlib.Data.List.Basic

/-! Runs of a machine given by a partial step function.

`step s a = none` says that action `a` cannot happen in state `s` (a thread that
would block, a call that does not exist). `Reachable` collects the states of all
runs whose every step satisfies a condition `Allowed` on the action and the state
before it; the trivial condition gives all runs. `Reachable.invariant` is the
induction every invariant uses.

`run_rel` compares two runs of the same actions, `run_filter` a run and what is left of
it when some of its actions are deleted. `Unwinding` is the second for an observer: from
related states, an action that concerns him can be repeated and keeps the relation, any
other keeps it by doing nothing on the second side. Then a run with all other actions
deleted exists and ends in a related state (`Unwinding.run`).

A part of the state that moves by steps of another machine, or not at all, is a run of that
machine (`Reachable.seen`). `trace` is what an observer sees of a run. A machine that can
follow every step by what is seen of it follows every run (`run_follows`).

Steps that each lower a measure make no run longer than the measure (`run_length_le`), and
some run of them cannot be continued (`run_stuck`). -/
namespace Runs
variable {σ α : Type} (step : σ → α → Option σ)

def run (s : σ) : List α → Option σ
  | [] => some s
  | a :: rest => (step s a).bind fun t => run t rest

theorem run_cons {s u : σ} {a : α} {rest : List α} (h : run step s (a :: rest) = some u) :
    ∃ t, step s a = some t ∧ run step t rest = some u := by
  simpa only [run, Option.bind_eq_some_iff] using h

/-- The states of the runs from `init` whose steps all satisfy `Allowed`. -/
inductive Reachable (Allowed : σ → α → Prop) (init : σ) : σ → Prop where
  | init : Reachable Allowed init init
  | step {s t a} : Reachable Allowed init s → Allowed s a → step s a = some t →
      Reachable Allowed init t

variable {step} {Allowed Allowed' : σ → α → Prop} {init : σ}

/-- What holds at the start and survives every allowed step holds in every
reachable state. -/
theorem Reachable.invariant {Inv : σ → Prop} {s : σ} (h : Reachable step Allowed init s)
    (hinit : Inv init)
    (hstep : ∀ s a t, Reachable step Allowed init s → Inv s → Allowed s a → step s a = some t →
      Inv t) : Inv s := by
  induction h with
  | init => exact hinit
  | step hs ha hst ih => exact hstep _ _ _ hs ih ha hst

theorem Reachable.mono {s : σ} (h : Reachable step Allowed init s)
    (himp : ∀ s a, Allowed s a → Allowed' s a) : Reachable step Allowed' init s := by
  induction h with
  | init => exact .init
  | step _ ha hst ih => exact .step ih (himp _ _ ha) hst

/-- What every step of a run keeps, the run keeps. -/
theorem run_invariant {P : σ → Prop} {s t : σ} {actions : List α} (hinit : P s)
    (hstep : ∀ s a t, a ∈ actions → P s → step s a = some t → P t)
    (hrun : Runs.run step s actions = some t) : P t := by
  induction actions generalizing s with
  | nil =>
    cases hrun
    exact hinit
  | cons a rest ih =>
    obtain ⟨u, hu, hrest⟩ := run_cons step hrun
    apply ih (hstep s a u (List.mem_cons_self ..) hinit hu) _ hrest
    intro s b t hb
    exact hstep s b t (List.mem_cons_of_mem a hb)

/-- A run extends a reachable state when its steps are allowed wherever they happen. -/
theorem Reachable.run {s t : σ} {actions : List α} (h : Reachable step Allowed init s)
    (hall : ∀ a ∈ actions, ∀ s, Allowed s a) (hrun : Runs.run step s actions = some t) :
    Reachable step Allowed init t :=
  run_invariant h (fun s a _ ha hs hstep => hs.step (hall a ha s) hstep) hrun

variable (step) in
/-- A run that stops at the first action a test rejects. -/
def tested (test : σ → α → Bool) (s : σ) : List α → Option σ
  | [] => some s
  | a :: rest => if test s a then (step s a).bind fun t => tested test t rest else none

/-- A run whose every action passes a test that implies `Allowed` is an allowed run. -/
theorem Reachable.tested {s t : σ} {test : σ → α → Bool} {actions : List α}
    (h : Reachable step Allowed init s) (htest : ∀ s a, test s a = true → Allowed s a)
    (hrun : Runs.tested step test s actions = some t) : Reachable step Allowed init t := by
  induction actions generalizing s with
  | nil =>
    cases hrun
    exact h
  | cons a rest ih =>
    rw [Runs.tested] at hrun
    split at hrun
    · rename_i ha
      obtain ⟨u, hstep, hrest⟩ := Option.bind_eq_some_iff.mp hrun
      exact ih (.step h (htest s a ha) hstep) hrest
    · cases hrun

variable (step) in
/-- Every action of a run is allowed where it happens. -/
def Along (Allowed : σ → α → Prop) (s : σ) : List α → Prop
  | [] => True
  | a :: rest => Allowed s a ∧ ∀ t, step s a = some t → Along Allowed t rest

theorem along_of_forall {s : σ} {actions : List α} (h : ∀ a ∈ actions, ∀ s, Allowed s a) :
    Along step Allowed s actions := by
  induction actions generalizing s with
  | nil => trivial
  | cons a rest ih =>
    exact ⟨h a (List.mem_cons_self ..) s,
      fun _ _ => ih fun b hb => h b (List.mem_cons_of_mem a hb)⟩

theorem along_tested {s t : σ} {test : σ → α → Bool} {actions : List α}
    (htest : ∀ s a, test s a = true → Allowed s a)
    (hrun : Runs.tested step test s actions = some t) :
    Along step Allowed s actions ∧ Runs.run step s actions = some t := by
  induction actions generalizing s with
  | nil => exact ⟨trivial, hrun⟩
  | cons a rest ih =>
    rw [Runs.tested] at hrun
    split at hrun
    · rename_i ha
      obtain ⟨u, hu, hrest⟩ := Option.bind_eq_some_iff.mp hrun
      obtain ⟨halong, hrun'⟩ := ih hrest
      refine ⟨⟨htest s a ha, fun t ht => ?_⟩, ?_⟩
      · cases hu.symm.trans ht
        exact halong
      · rw [Runs.run, hu]
        exact hrun'
    · cases hrun

/-! ### Two runs -/

/-- A run with some of its actions deleted stays related to the run, when the deleted
actions keep the relation by themselves and the others keep it together. -/
theorem run_filter {about : α → Bool} {R : σ → σ → Prop}
    (hown : ∀ s s' a t, R s s' → Allowed s a → about a = true → step s a = some t →
      ∃ t', step s' a = some t' ∧ R t t')
    (hother : ∀ s s' a t, R s s' → Allowed s a → about a = false → step s a = some t → R t s')
    {s s' t : σ} {actions : List α} (h : R s s') (halong : Along step Allowed s actions)
    (hrun : Runs.run step s actions = some t) :
    ∃ t', Runs.run step s' (actions.filter about) = some t' ∧ R t t' := by
  induction actions generalizing s s' with
  | nil =>
    cases hrun
    exact ⟨s', rfl, h⟩
  | cons a rest ih =>
    obtain ⟨u, hu, hrest⟩ := run_cons step hrun
    obtain ⟨hallowed, hafter⟩ := halong
    cases ha : about a
    · rw [List.filter_cons_of_neg (by simp [ha])]
      exact ih (hother s s' a u h hallowed ha hu) (hafter u hu) hrest
    · obtain ⟨u', hu', hrel⟩ := hown s s' a u h hallowed ha hu
      obtain ⟨t', hrun', ht'⟩ := ih hrel (hafter u hu) hrest
      rw [List.filter_cons_of_pos ha]
      exact ⟨t', by simp only [Runs.run, hu', Option.bind_some, hrun'], ht'⟩

variable (step) in
theorem run_eq_foldlM (s : σ) (actions : List α) : run step s actions = actions.foldlM step s := by
  induction actions generalizing s with
  | nil => rfl
  | cons a rest ih =>
    rw [run, List.foldlM_cons]
    exact congrArg (Option.bind (step s a)) (funext ih)

/-- Two runs of the same actions stay related when every step of them does. -/
theorem run_rel {R : σ → σ → Prop} {actions : List α}
    (hstep : ∀ s s' a, a ∈ actions → R s s' → Option.Rel R (step s a) (step s' a)) {s s' : σ}
    (h : R s s') : Option.Rel R (run step s actions) (run step s' actions) := by
  induction actions generalizing s s' with
  | nil => exact .some h
  | cons a rest ih =>
    have ha := hstep s s' a (List.mem_cons_self ..) h
    rw [run, run]
    revert ha
    generalize step s a = x
    generalize step s' a = x'
    intro ha
    cases ha with
    | none => exact .none
    | some hrel => exact ih (fun s s' b hb => hstep s s' b (List.mem_cons_of_mem a hb)) hrel

theorem map_eq_of_rel {R : σ → σ → Prop} {β : Type} {view : σ → β}
    (hview : ∀ s s', R s s' → view s = view s') {x x' : Option σ} (h : Option.Rel R x x') :
    x.map view = x'.map view := by
  cases h with
  | none => rfl
  | some hrel => exact congrArg some (hview _ _ hrel)

/-- `Sees s s'`: the observer cannot tell `s'`, where only his own actions
happened, from `s`. `Ok` is a condition on the first run, asked of its last state
and inherited backwards. -/
structure Unwinding (step : σ → α → Option σ) (about : α → Bool) (Ok : σ → Prop)
    (Sees : σ → σ → Prop) : Prop where
  back : ∀ s a t, step s a = some t → Ok t → Ok s
  own : ∀ s s' a t, Sees s s' → Ok t → about a = true → step s a = some t →
    ∃ t', step s' a = some t' ∧ Sees t t'
  other : ∀ s s' a t, Sees s s' → Ok t → about a = false → step s a = some t → Sees t s'

theorem Unwinding.along {about : α → Bool} {Ok : σ → Prop} {Sees : σ → σ → Prop}
    (w : Unwinding step about Ok Sees) {s t : σ} {actions : List α}
    (hrun : Runs.run step s actions = some t) (ht : Ok t) :
    Ok s ∧ Along step (fun s a => ∀ t, step s a = some t → Ok t) s actions := by
  induction actions generalizing s with
  | nil =>
    cases hrun
    exact ⟨ht, trivial⟩
  | cons a rest ih =>
    obtain ⟨u, hstep, hrest⟩ := run_cons step hrun
    obtain ⟨hu, halong⟩ := ih hrest
    refine ⟨w.back s a u hstep hu, fun v hv => ?_, fun v hv => ?_⟩
    · cases hstep.symm.trans hv
      exact hu
    · cases hstep.symm.trans hv
      exact halong

/-- **Deleting every action that does not concern the observer** leaves a run,
and one he cannot tell from the first. -/
theorem Unwinding.run {about : α → Bool} {Ok : σ → Prop} {Sees : σ → σ → Prop}
    (w : Unwinding step about Ok Sees) {s s' t : σ} {actions : List α} (hsees : Sees s s')
    (hrun : Runs.run step s actions = some t) (ht : Ok t) :
    ∃ t', Runs.run step s' (actions.filter about) = some t' ∧ Sees t t' := by
  apply run_filter _ _ hsees (w.along hrun ht).2 hrun
  · intro s s' a u hs hok ha hstep
    exact w.own s s' a u hs (hok u hstep) ha hstep
  · intro s s' a u hs hok ha hstep
    exact w.other s s' a u hs (hok u hstep) ha hstep

/-! ### A machine that follows another -/

/-- **What is seen of a machine is a run of another**, when every step is seen as a step of
the other or not at all. -/
theorem Reachable.seen {τ β : Type} {step' : τ → β → Option τ} {Allowed' : τ → β → Prop}
    (view : σ → τ) {s : σ} (h : Reachable step Allowed init s)
    (hstep : ∀ s a t, Allowed s a → step s a = some t →
      view t = view s ∨ ∃ b, Allowed' (view s) b ∧ step' (view s) b = some (view t)) :
    Reachable step' Allowed' (view init) (view s) := by
  induction h with
  | init => exact .init
  | step _ ha hst ih =>
    obtain heq | ⟨b, hb, hst'⟩ := hstep _ _ _ ha hst
    · rwa [heq]
    · exact .step ih hb hst'

theorem Reachable.along {s t : σ} {actions : List α} (h : Reachable step Allowed init s)
    (halong : Along step Allowed s actions) (hrun : Runs.run step s actions = some t) :
    Reachable step Allowed init t := by
  induction actions generalizing s with
  | nil =>
    cases hrun
    exact h
  | cons a rest ih =>
    obtain ⟨u, hu, hrest⟩ := run_cons step hrun
    exact ih (h.step halong.1 hu) (halong.2 u hu) hrest

theorem run_append {s : σ} (a b : List α) :
    run step s (a ++ b) = (run step s a).bind fun t => run step t b := by
  induction a generalizing s with
  | nil => rfl
  | cons x rest ih =>
    rw [List.cons_append, run, run, Option.bind_assoc]
    exact congrArg (Option.bind (step s x)) (funext fun _ => ih)

variable {τ ω : Type}

variable (step) in
/-- What is seen of a run, when `obs s t` is seen of a step from `s` to `t`. -/
def trace (obs : σ → σ → List ω) (s : σ) : List α → List ω
  | [] => []
  | a :: rest =>
    match step s a with
    | none => []
    | some t => obs s t ++ trace obs t rest

/-- **A machine that follows every step follows every run.** -/
theorem run_follows {spec : τ → ω → Option τ} {obs : σ → σ → List ω} {R : σ → τ → Prop}
    (hstep : ∀ s m a t, R s m → Allowed s a → step s a = some t →
      ∃ m', run spec m (obs s t) = some m' ∧ R t m')
    {s t : σ} {m : τ} {actions : List α} (h : R s m) (halong : Along step Allowed s actions)
    (hrun : Runs.run step s actions = some t) :
    ∃ m', run spec m (trace step obs s actions) = some m' ∧ R t m' := by
  induction actions generalizing s m with
  | nil =>
    cases hrun
    exact ⟨m, rfl, h⟩
  | cons a rest ih =>
    obtain ⟨u, hu, hrest⟩ := run_cons step hrun
    obtain ⟨m₁, hm₁, hrel⟩ := hstep s m a u h halong.1 hu
    obtain ⟨m₂, hm₂, hend⟩ := ih hrel (halong.2 u hu) hrest
    refine ⟨m₂, ?_, hend⟩
    rw [trace, hu]
    dsimp only
    rw [run_append, hm₁, Option.bind_some, hm₂]

/-! ### Steps that lower a measure -/

section
variable {P : σ → Prop} {Q : α → Prop} {measure : σ → Nat}

theorem run_length_le
    (hstep : ∀ s a t, P s → Q a → step s a = some t → P t ∧ measure t < measure s)
    {s t : σ} {actions : List α} (h : P s) (hall : ∀ a ∈ actions, Q a)
    (hrun : Runs.run step s actions = some t) : P t ∧ actions.length + measure t ≤ measure s := by
  induction actions generalizing s with
  | nil =>
    cases hrun
    exact ⟨h, by simp⟩
  | cons a rest ih =>
    obtain ⟨u, hu, hrest⟩ := run_cons step hrun
    obtain ⟨hpu, hless⟩ := hstep s a u h (hall a (List.mem_cons_self ..)) hu
    obtain ⟨hpt, hle⟩ := ih hpu (fun b hb => hall b (List.mem_cons_of_mem a hb)) hrest
    rw [List.length_cons]
    exact ⟨hpt, by omega⟩

theorem run_stuck
    (hstep : ∀ s a t, P s → Q a → step s a = some t → P t ∧ measure t < measure s)
    {s : σ} (h : P s) : ∃ actions t, (∀ a ∈ actions, Q a) ∧ Runs.run step s actions = some t ∧
      P t ∧ ∀ a, Q a → step t a = none := by
  induction hn : measure s using Nat.strongRecOn generalizing s with
  | ind n ih =>
    by_cases hstuck : ∀ a, Q a → step s a = none
    · exact ⟨[], s, fun _ ha => absurd ha List.not_mem_nil, rfl, h, hstuck⟩
    · simp only [not_forall] at hstuck
      obtain ⟨a, ha, hsome⟩ := hstuck
      obtain ⟨u, hu⟩ := Option.ne_none_iff_exists'.mp hsome
      obtain ⟨hpu, hless⟩ := hstep s a u h ha hu
      obtain ⟨actions, t, hall, hrun, hpt, hend⟩ := ih (measure u) (hn ▸ hless) hpu rfl
      refine ⟨a :: actions, t, fun b hb => ?_, ?_, hpt, hend⟩
      · rcases List.mem_cons.mp hb with rfl | hb
        · exact ha
        · exact hall b hb
      · rw [Runs.run, hu]
        exact hrun

end

end Runs
