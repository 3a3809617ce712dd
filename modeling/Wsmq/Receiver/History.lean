import Wsmq.Message

/-! What the receiver does, told from the strings it was given.

`feed` hands strings to `message_dispatch` one by one. After any strings the map
holds a context for exactly the uuids whose last BEGIN no END follows, with the
payloads since (`Opens`, `payloads`), and what is delivered next depends on
nothing else. This is for arbitrary strings: malformed ones, chunks and ends
without a beginning, and restarts included. -/
namespace Wsmq.Receiver

/-- Strings handled one after another: the map after them and, string by string,
the callbacks made. -/
def feed (P : Protobuf) (S : Snap) (cancels : ProgressContext → Bool) (contexts : Contexts) :
    List Bytes → Contexts × List (List Callback)
  | [] => (contexts, [])
  | data :: rest =>
    let dispatched := messageDispatch P S cancels contexts data
    let fed := feed P S cancels dispatched.1 rest
    (fed.1, dispatched.2 :: fed.2)

/-- The messages handed to `on_message`. -/
def deliveries (callbacks : List Callback) : List (Uuid × Bytes) :=
  callbacks.filterMap fun
    | .onMessage uuid message => some (uuid, message)
    | _ => none

/-- The frames the strings carry, each with its uuid. -/
def frames (P : Protobuf) (strings : List Bytes) : List (Uuid × Frame) :=
  strings.filterMap (frameOf P)

/-- What a frame delivers from the context of its uuid. -/
def delivered (S : Snap) (context : Option MessageContext) : Frame → Option Bytes
  | .oneshot m => some m.message
  | .begin _ => none
  | .process _ => none
  | .end _ => context.bind fun c => if c.compression = .SNAPPY then S.decode c.buffer else none

/-! ### The history of one uuid -/

/-- The last BEGIN of `fs` is `m`, the frames after it are `post`, and none of them
is an END. -/
def Opens (fs : List Frame) (m : Begin) (post : List Frame) : Prop :=
  (∃ pre, fs = pre ++ .begin m :: post) ∧ ∀ f ∈ post, f.kind ≠ .BEGIN ∧ f.kind ≠ .END

/-- The payloads of the PROCESS frames, in order. -/
def payloads (fs : List Frame) : Bytes :=
  fs.flatMap fun
    | .process m => m.message
    | _ => []

/-- The context the frames of a uuid leave. -/
def Holds (fs : List Frame) (c : MessageContext) : Prop :=
  ∃ m post, Opens fs m post ∧ c = ⟨m.compression, m.length, payloads post⟩

theorem opens_snoc (fs : List Frame) (f : Frame) (m : Begin) (post : List Frame) :
    Opens (fs ++ [f]) m post ↔ (f = .begin m ∧ post = []) ∨
      (f.kind ≠ .BEGIN ∧ f.kind ≠ .END) ∧ ∃ before, post = before ++ [f] ∧ Opens fs m before := by
  constructor
  · intro h
    obtain ⟨⟨pre, hpre⟩, hpost⟩ := h
    rcases List.eq_nil_or_concat post with rfl | ⟨before, g, rfl⟩
    · obtain ⟨-, hf⟩ := List.append_inj' hpre rfl
      cases hf
      exact .inl ⟨rfl, rfl⟩
    · rw [List.concat_eq_append] at hpre hpost ⊢
      rw [← List.cons_append, ← List.append_assoc] at hpre
      obtain ⟨hfs, hf⟩ := List.append_inj' hpre rfl
      cases hf
      exact .inr ⟨hpost f (by simp), before, rfl, ⟨pre, hfs⟩,
        fun g hg => hpost g (List.mem_append_left _ hg)⟩
  · intro h
    rcases h with ⟨rfl, rfl⟩ | ⟨hf, before, rfl, ⟨pre, rfl⟩, hbefore⟩
    · exact ⟨⟨fs, rfl⟩, fun f hf => absurd hf (by simp)⟩
    · refine ⟨⟨pre, by simp⟩, fun g hg => ?_⟩
      rcases List.mem_append.mp hg with hg | hg
      · exact hbefore g hg
      · cases List.mem_singleton.mp hg
        exact hf

/-- **The context is the history**: a fold over the frames of a uuid leaves what
its last BEGIN opened, or nothing. -/
theorem foldl_next (fs : List Frame) (c : MessageContext) :
    fs.foldl MessageContext.next none = some c ↔ Holds fs c := by
  induction fs using List.reverseRecOn generalizing c with
  | nil =>
    constructor
    · intro h
      cases h
    · intro h
      obtain ⟨m, post, ⟨⟨pre, hpre⟩, -⟩, -⟩ := h
      simp at hpre
  | append_singleton fs f ih =>
    rw [List.foldl_append]
    simp only [List.foldl_cons, List.foldl_nil, Holds, opens_snoc]
    cases f with
    | oneshot m =>
      rw [MessageContext.next, ih]
      constructor
      · intro h
        obtain ⟨b, post, hopens, rfl⟩ := h
        exact ⟨b, _, .inr ⟨by simp [Frame.kind], post, rfl, hopens⟩, by simp [payloads]⟩
      · intro h
        obtain ⟨b, post, ⟨hf, -⟩ | ⟨-, before, rfl, hopens⟩, rfl⟩ := h
        · cases hf
        · exact ⟨b, before, hopens, by simp [payloads]⟩
    | begin m =>
      rw [MessageContext.next]
      constructor
      · intro h
        cases h
        exact ⟨m, [], .inl ⟨rfl, rfl⟩, rfl⟩
      · intro h
        obtain ⟨b, post, ⟨hf, rfl⟩ | ⟨hf, -⟩, rfl⟩ := h
        · cases hf
          rfl
        · exact absurd rfl hf.1
    | process m =>
      rw [MessageContext.next, Option.map_eq_some_iff]
      constructor
      · intro h
        obtain ⟨c', hc', rfl⟩ := h
        obtain ⟨b, post, hopens, rfl⟩ := (ih c').mp hc'
        refine ⟨b, _, .inr ⟨by simp [Frame.kind], post, rfl, hopens⟩, ?_⟩
        simp [payloads]
      · intro h
        obtain ⟨b, post, ⟨hf, -⟩ | ⟨-, before, rfl, hopens⟩, rfl⟩ := h
        · cases hf
        · refine ⟨_, (ih _).mpr ⟨b, before, hopens, rfl⟩, ?_⟩
          simp [payloads]
    | «end» m =>
      rw [MessageContext.next]
      constructor
      · intro h
        cases h
      · intro h
        obtain ⟨b, post, ⟨hf, -⟩ | ⟨hf, -⟩, -⟩ := h
        · cases hf
        · exact absurd rfl hf.2

/-! ### Feeding -/

variable {P : Protobuf} {S : Snap} {cancels : ProgressContext → Bool} {contexts : Contexts}

theorem feed_append (a b : List Bytes) : feed P S cancels contexts (a ++ b) =
    ((feed P S cancels (feed P S cancels contexts a).1 b).1, (feed P S cancels contexts a).2 ++
      (feed P S cancels (feed P S cancels contexts a).1 b).2) := by
  induction a generalizing contexts with
  | nil => rfl
  | cons data rest ih =>
    rw [List.cons_append, feed, ih]
    rfl

theorem feed_length (strings : List Bytes) :
    (feed P S cancels contexts strings).2.length = strings.length := by
  induction strings generalizing contexts with
  | nil => rfl
  | cons data rest ih => rw [feed, List.length_cons, ih, List.length_cons]

/-- The callbacks of one string among others. -/
theorem feed_at (before after : List Bytes) (data : Bytes) :
    (feed P S cancels contexts (before ++ data :: after)).2[before.length]? =
      some (messageDispatch P S cancels (feed P S cancels contexts before).1 data).2 := by
  rw [feed_append]
  dsimp only
  rw [List.getElem?_append_right (by rw [feed_length]), feed_length, Nat.sub_self]
  rfl

theorem frames_cons (data : Bytes) (rest : List Bytes) :
    frames P (data :: rest) = (frameOf P data).toList ++ frames P rest := by
  rw [frames, List.filterMap_cons]
  cases frameOf P data <;> rfl

theorem feed_contexts (strings : List Bytes) : (feed P S cancels contexts strings).1 =
    Keyed.run MessageContext.next contexts (frames P strings) := by
  induction strings generalizing contexts with
  | nil => rfl
  | cons data rest ih =>
    rw [feed, ih, dispatch_eq, frames_cons]
    cases frameOf P data with
    | none => rfl
    | some x => rfl

theorem feed_lookup (strings : List Bytes) (u : Uuid) (c : MessageContext) :
    (feed P S cancels ∅ strings).1.lookup u = some c ↔
      Holds (Keyed.eventsOf u (frames P strings)) c := by
  rw [feed_contexts, Keyed.lookup_run, Finmap.lookup_empty]
  exact foldl_next _ c

/-! ### Deliveries -/

theorem deliveries_append (a b : List Callback) :
    deliveries (a ++ b) = deliveries a ++ deliveries b :=
  List.filterMap_append

theorem deliveries_progress (pctx : ProgressContext) : deliveries (progress cancels pctx) = [] := by
  apply List.filterMap_eq_nil_iff.mpr
  intro callback hmem
  obtain rfl | ⟨-, rfl⟩ := mem_progress.mp hmem <;> rfl

theorem no_error_progress (pctx : ProgressContext) (err : DispatchError) :
    .onError err ∉ progress cancels pctx := by
  intro h
  obtain heq | ⟨-, heq⟩ := mem_progress.mp h <;> cases heq

theorem deliveries_malformed (data : Bytes) : deliveries (malformed P data) = [] := by
  apply List.filterMap_eq_nil_iff.mpr
  intro callback hmem
  obtain rfl | rfl := mem_malformed hmem <;> rfl

theorem deliveries_callbacks (context : Option MessageContext) (u : Uuid) (frame : Frame) :
    deliveries (MessageContext.callbacks S cancels context u frame) =
      ((delivered S context frame).map fun x => (u, x)).toList := by
  cases frame with
  | oneshot m => rfl
  | begin m => exact deliveries_progress _
  | process m =>
    cases context with
    | none => rfl
    | some c => exact deliveries_progress _
  | «end» m =>
    cases context with
    | none => rfl
    | some c =>
      rw [MessageContext.callbacks, delivered, Option.bind_some]
      split
      · cases S.decode c.buffer with
        | none => rfl
        | some x => rfl
      · rfl

theorem deliveries_dispatch (data : Bytes) :
    deliveries (messageDispatch P S cancels contexts data).2 =
      ((frameOf P data).bind fun f =>
        (delivered S (contexts.lookup f.1) f.2).map fun x => (f.1, x)).toList := by
  rw [dispatch_eq]
  cases frameOf P data with
  | none => exact deliveries_malformed data
  | some f => exact deliveries_callbacks _ _ _

theorem mem_deliveries {callbacks : List Callback} {u : Uuid} {x : Bytes} :
    (u, x) ∈ deliveries callbacks ↔ .onMessage u x ∈ callbacks := by
  rw [deliveries, List.mem_filterMap]
  constructor
  · intro h
    obtain ⟨callback, hmem, h⟩ := h
    cases callback <;> cases h
    exact hmem
  · intro h
    exact ⟨_, h, rfl⟩

theorem mem_dispatch {data : Bytes} {u : Uuid} {x : Bytes} :
    .onMessage u x ∈ (messageDispatch P S cancels contexts data).2 ↔
      ∃ frame, frameOf P data = some (u, frame) ∧
        delivered S (contexts.lookup u) frame = some x := by
  rw [← mem_deliveries, deliveries_dispatch, Option.mem_toList, Option.bind_eq_some_iff]
  constructor
  · intro h
    obtain ⟨⟨v, frame⟩, hf, h⟩ := h
    obtain ⟨y, hy, he⟩ := Option.map_eq_some_iff.mp h
    cases he
    exact ⟨frame, hf, hy⟩
  · intro h
    obtain ⟨frame, hf, hx⟩ := h
    exact ⟨(u, frame), hf, by rw [hx]; rfl⟩

theorem delivered_end {context : Option MessageContext} {m : End} {x : Bytes} :
    delivered S context (.end m) = some x ↔
      ∃ c, context = some c ∧ c.compression = .SNAPPY ∧ S.decode c.buffer = some x := by
  rw [delivered, Option.bind_eq_some_iff]
  constructor
  · intro h
    obtain ⟨c, hc, h⟩ := h
    split at h
    · rename_i hsnappy
      exact ⟨c, hc, hsnappy, h⟩
    · cases h
  · intro h
    obtain ⟨c, hc, hsnappy, h⟩ := h
    exact ⟨c, hc, by rw [if_pos hsnappy, h]⟩

/-- **The receiver refines its history.** After any strings the contexts are those
the frames of each uuid leave open; the next string delivers a ONESHOT's message,
or what an END's open context decodes to, and nothing else. -/
theorem history (P : Protobuf) (S : Snap) (cancels : ProgressContext → Bool)
    (before after : List Bytes) (data : Bytes) :
    (∀ u c, (feed P S cancels ∅ before).1.lookup u = some c ↔
      Holds (Keyed.eventsOf u (frames P before)) c) ∧
    ∃ callbacks, (feed P S cancels ∅ (before ++ data :: after)).2[before.length]? =
        some callbacks ∧
      (deliveries callbacks).length ≤ 1 ∧
      ∀ u x, .onMessage u x ∈ callbacks ↔
        (∃ m, frameOf P data = some (u, .oneshot m) ∧ m.message = x) ∨
        (∃ m c, frameOf P data = some (u, .end m) ∧
          Holds (Keyed.eventsOf u (frames P before)) c ∧
          c.compression = .SNAPPY ∧ S.decode c.buffer = some x) := by
  refine ⟨feed_lookup before, _, feed_at before after data, ?_, fun u x => ?_⟩
  · rw [deliveries_dispatch]
    exact Option.length_toList_le
  · rw [mem_dispatch]
    constructor
    · intro h
      obtain ⟨frame, hframe, hx⟩ := h
      cases frame with
      | oneshot m =>
        cases hx
        exact .inl ⟨m, hframe, rfl⟩
      | begin m => cases hx
      | process m => cases hx
      | «end» m =>
        obtain ⟨c, hc, hsnappy, hdecode⟩ := delivered_end.mp hx
        exact .inr ⟨m, c, hframe, (feed_lookup before u c).mp hc, hsnappy, hdecode⟩
    · intro h
      rcases h with ⟨m, hframe, rfl⟩ | ⟨m, c, hframe, hholds, hsnappy, hdecode⟩
      · exact ⟨_, hframe, rfl⟩
      · exact ⟨_, hframe, delivered_end.mpr
          ⟨c, (feed_lookup before u c).mpr hholds, hsnappy, hdecode⟩⟩

end Wsmq.Receiver
