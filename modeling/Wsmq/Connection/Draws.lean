import Wsmq.Connection.Table

/-! The loop of `generate_uuid`.

With the table locked it draws until it has a uuid that is no key. A `send` of
`Connection.lean` says with which draw it ends; here is the loop itself. A key was made by a
call, so among more different draws than calls were ever opened there is one that ends it
(`uuid_drawn`), and the table is then as that `send` leaves it. -/
namespace Wsmq

/-- The loop on its draws: the uuid it ends with and the table after it, or nothing when it
is still drawing. -/
def SharedData.drawUuid (responses : ResponseStatusMap) :
    List Uuid → Option (Uuid × ResponseStatusMap)
  | [] => none
  | uuid :: draws =>
    match responses.lookup uuid with
    | none => some (uuid, responses.insert uuid .none)
    | some _ => drawUuid responses draws

variable {e : Endpoint} {Allowed : State → Action → Prop} {s t : State}
variable {responses after : ResponseStatusMap} {draws : List Uuid} {u : Uuid}

/-- **The loop ends with the first draw that is no key.** -/
theorem drawUuid_eq_some_iff : SharedData.drawUuid responses draws = some (u, after) ↔
    ∃ taken rest, draws = taken ++ u :: rest ∧ (∀ v ∈ taken, v ∈ responses) ∧
      SharedData.generateUuid responses u = some after := by
  induction draws with
  | nil => simp [SharedData.drawUuid]
  | cons v draws ih =>
    rw [SharedData.drawUuid]
    split
    · rename_i hnone
      constructor
      · intro h
        cases h
        exact ⟨[], draws, rfl, fun _ h => absurd h List.not_mem_nil, if_pos hnone⟩
      · intro h
        obtain ⟨taken, rest, hdraws, htaken, hgenerate⟩ := h
        cases taken with
        | nil =>
          cases hdraws
          rw [SharedData.generateUuid, if_pos hnone] at hgenerate
          cases hgenerate
          rfl
        | cons w taken =>
          obtain ⟨rfl, -⟩ := List.cons.inj hdraws
          exact absurd (htaken v (List.mem_cons_self ..)) (Finmap.lookup_eq_none.mp hnone)
    · rename_i status hsome
      rw [ih]
      constructor
      · intro h
        obtain ⟨taken, rest, rfl, htaken, hgenerate⟩ := h
        refine ⟨v :: taken, rest, rfl, fun w hw => ?_, hgenerate⟩
        obtain rfl | hw := List.mem_cons.mp hw
        · exact Finmap.mem_of_lookup_eq_some hsome
        · exact htaken w hw
      · intro h
        obtain ⟨taken, rest, hdraws, htaken, hgenerate⟩ := h
        cases taken with
        | nil =>
          cases hdraws
          rw [SharedData.generateUuid, if_neg (by rw [hsome]; simp)] at hgenerate
          cases hgenerate
        | cons w taken =>
          obtain ⟨rfl, rfl⟩ := List.cons.inj hdraws
          exact ⟨taken, rest, rfl, fun w hw => htaken w (List.mem_cons_of_mem _ hw), hgenerate⟩

/-- More different draws than there are keys end the loop. -/
theorem drawUuid_ends (hmany : responses.keys.card < draws.toFinset.card) :
    ∃ u after, SharedData.drawUuid responses draws = some (u, after) := by
  have hnew : ∃ u ∈ draws, u ∉ responses := by
    by_contra hall
    push Not at hall
    have hsubset : draws.toFinset ⊆ responses.keys := fun u hu =>
      Finmap.mem_keys.mpr (hall u (List.mem_toFinset.mp hu))
    exact absurd (Finset.card_le_card hsubset) (Nat.not_le.mpr hmany)
  clear hmany
  induction draws with
  | nil =>
    obtain ⟨u, hu, -⟩ := hnew
    cases hu
  | cons v draws ih =>
    rw [SharedData.drawUuid]
    split
    · exact ⟨v, _, rfl⟩
    · rename_i status hsome
      obtain ⟨u, hu, hnot⟩ := hnew
      obtain rfl | hu := List.mem_cons.mp hu
      · exact absurd (Finmap.mem_of_lookup_eq_some hsome) hnot
      · exact ih ⟨u, hu, hnot⟩

/-! ### The keys there are -/

/-- The uuid of a call that got a key. -/
def Event.openedUuid : Event → Option Uuid
  | .opened c => some c.uuid
  | _ => none

def openedUuids (log : List Event) : List Uuid := log.filterMap Event.openedUuid

theorem History.key_opened (h : History e Allowed s) (hkey : u ∈ s.responses) :
    u ∈ openedUuids s.log := by
  induction h with
  | init => exact absurd hkey (Finmap.notMem_empty)
  | @event s t a ev hs ha hev ih =>
    rw [hev.log, openedUuids, List.filterMap_append]
    have hlookup : t.responses.lookup u ≠ none := fun hnone =>
      Finmap.lookup_eq_none.mp hnone hkey
    obtain hbefore | ⟨c, rfl, rfl⟩ := hev.key hlookup
    · have hmem : u ∈ s.responses := by
        by_contra hnot
        exact hbefore (Finmap.lookup_eq_none.mpr hnot)
      exact List.mem_append_left _ (ih hmem)
    · exact List.mem_append_right _ (List.mem_singleton_self _)

theorem History.card_keys_le (h : History e Allowed s) :
    s.responses.keys.card ≤ (openedUuids s.log).length := by
  have hsubset : s.responses.keys ⊆ (openedUuids s.log).toFinset := fun u hu =>
    List.mem_toFinset.mpr (h.key_opened (Finmap.mem_keys.mp hu))
  exact (Finset.card_le_card hsubset).trans (List.toFinset_card_le _)

/-- **`generate_uuid` ends**, in every state a connection comes to, when more different uuids
are drawn than calls were opened: with the first that is no key, and the call that goes by it
begins with the table the loop leaves. -/
theorem uuid_drawn (hside : e.side = .client)
    (h : Runs.Reachable (step e) (fun _ _ => True) .init s) (hlock : s.lock = .free)
    (hmany : (openedUuids s.log).length < draws.toFinset.card) :
    ∃ u after, SharedData.drawUuid s.responses draws = some (u, after) ∧
      (∃ taken rest, draws = taken ++ u :: rest ∧ (∀ v ∈ taken, v ∈ s.responses) ∧
        u ∉ s.responses) ∧
      ∀ number request, s.calls ⟨u, number⟩ = .idle →
        ∃ t, step e s (.send ⟨u, number⟩ request) = some t ∧ t.responses = after := by
  have hcard := (history_of_reachable h).card_keys_le
  obtain ⟨u, after, hdraw⟩ := drawUuid_ends (Nat.lt_of_le_of_lt hcard hmany)
  obtain ⟨taken, rest, hdraws, htaken, hgenerate⟩ := drawUuid_eq_some_iff.mp hdraw
  have hnone : s.responses.lookup u = none := by
    by_contra hkey
    rw [SharedData.generateUuid, if_neg hkey] at hgenerate
    cases hgenerate
  refine ⟨u, after, hdraw, ⟨taken, rest, hdraws, htaken, Finmap.lookup_eq_none.mp hnone⟩,
    fun number request hidle => ?_⟩
  have hsent : Occurs e s (.send ⟨u, number⟩ request) (.opened ⟨u, number⟩) _ :=
    .sent hside hidle hlock hnone
  refine ⟨_, occurs_step hsent id, ?_⟩
  rw [SharedData.generateUuid, if_pos hnone] at hgenerate
  cases hgenerate
  show Response.register s.responses u = _
  rw [Response.register, hnone]

/-- A second uuid. -/
def nextUuid : Uuid := ⟨List.replicate 16 2, rfl⟩

/-- After one call two different draws are enough, however often the first is repeated. -/
theorem uuid_drawn_second : ∃ s after, Runs.Reachable (step exampleClient) (fun _ _ => True)
      .init s ∧
    SharedData.drawUuid s.responses [.nil, .nil, nextUuid] = some (nextUuid, after) := by
  have hview : (Runs.run (step exampleClient) .init (request exampleCall)).map
      (fun s => (s.lock, openedUuids s.log, s.responses.lookup .nil)) =
      some (.free, [.nil], some .none) := by
    decide +kernel
  obtain ⟨s, hs, hview⟩ := reachable_of_view _ hview
  obtain ⟨hlock, hrest⟩ := Prod.mk.inj hview
  obtain ⟨hopened, hkey⟩ := Prod.mk.inj hrest
  have hmany : (openedUuids s.log).length < [Uuid.nil, .nil, nextUuid].toFinset.card := by
    rw [hopened]
    decide
  obtain ⟨u, after, hdraw, ⟨taken, rest, hdraws, -, hnot⟩, -⟩ := uuid_drawn rfl hs hlock hmany
  refine ⟨s, after, hs, ?_⟩
  have hmem : u ∈ [Uuid.nil, .nil, nextUuid] := by simp [hdraws]
  simp only [List.mem_cons, List.not_mem_nil, or_false] at hmem
  obtain rfl | rfl | rfl := hmem
  · exact absurd (Finmap.mem_of_lookup_eq_some hkey) hnot
  · exact absurd (Finmap.mem_of_lookup_eq_some hkey) hnot
  · exact hdraw

end Wsmq
