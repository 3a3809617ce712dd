import Wsmq.Receiver.History

/-! Fields that the schemas do not know.

A schema accepts fields it has no name for, of whatever wire types the runtime reads. What it
makes of a message is a fold that passes them over, so of two strings with the same known fields
in the same order it makes the same (`dispatch_known`). Hence a peer whose schemas have more
fields is understood, by a runtime that reads one field after the other: wherever it puts them,
and in however many of its messages, every context and every callback is what it would be
without them (`extensions_ignored`). -/
namespace Wsmq.Receiver

/-- The fields that some of the five schemas have. -/
def known (f : Wire.Field) : Bool := f.1 ≤ 4

variable {F : Wire.Format} {M : Type} {merge : M → Wire.Field → Option M} {f : Wire.Field}
  {a b : Bytes}

theorem header_unknown (m : Header) (h : known f = false) : m.mergeField f = some m := by
  unfold Header.mergeField
  split <;> first | rfl | cases h

theorem oneshot_unknown (m : Oneshot) (h : known f = false) : m.mergeField f = some m := by
  unfold Oneshot.mergeField
  split <;> first | rfl | cases h

theorem begin_unknown (m : Begin) (h : known f = false) : m.mergeField f = some m := by
  unfold Begin.mergeField
  split <;> first | rfl | cases h

theorem process_unknown (m : Process) (h : known f = false) : m.mergeField f = some m := by
  unfold Process.mergeField
  split <;> first | rfl | cases h

theorem end_unknown (m : End) (h : known f = false) : m.mergeField f = some m := by
  unfold End.mergeField
  split <;> first | rfl | cases h

/-- A schema passes over what it does not know. -/
theorem foldlM_known (hmerge : ∀ m f, known f = false → merge m f = some m) (fs : List Wire.Field)
    (m : M) : fs.foldlM merge m = (fs.filter known).foldlM merge m := by
  induction fs generalizing m with
  | nil => rfl
  | cons f rest ih =>
    cases hf : known f
    · rw [List.filter_cons_of_neg (by simp [hf]), List.foldlM_cons, hmerge m f hf]
      exact ih m
    · rw [List.filter_cons_of_pos hf, List.foldlM_cons, List.foldlM_cons]
      exact congrArg (Option.bind (merge m f)) (funext ih)

/-- The known fields of a string, if it can be read. -/
def knownFields (F : Wire.Format) (data : Bytes) : Option (List Wire.Field) :=
  (F.read data).map fun fs => fs.filter known

theorem parse_known (hmerge : ∀ m f, known f = false → merge m f = some m) (new : M)
    (data : Bytes) :
    parseFromBytes F merge new data = (knownFields F data).bind fun fs => fs.foldlM merge new := by
  rw [parseFromBytes, knownFields, Option.bind_map]
  exact congrArg (Option.bind (F.read data)) (funext fun fs => foldlM_known hmerge fs new)

/-- **A message is its known fields.** -/
theorem dispatch_known {S : Snap} {cancels : ProgressContext → Bool} {contexts : Contexts}
    (h : knownFields F a = knownFields F b) :
    messageDispatch (.over F) S cancels contexts a =
      messageDispatch (.over F) S cancels contexts b := by
  have hparse : ∀ {M : Type} {merge : M → Wire.Field → Option M},
      (∀ m f, known f = false → merge m f = some m) → ∀ new,
      parseFromBytes F merge new a = parseFromBytes F merge new b := by
    intro M merge hmerge new
    rw [parse_known hmerge, parse_known hmerge, h]
  have hheader : Header.parseFromBytes F a = Header.parseFromBytes F b :=
    hparse (fun m _ => header_unknown m) _
  have honeshot : Oneshot.parseFromBytes F a = Oneshot.parseFromBytes F b :=
    hparse (fun m _ => oneshot_unknown m) _
  have hbegin : Begin.parseFromBytes F a = Begin.parseFromBytes F b :=
    hparse (fun m _ => begin_unknown m) _
  have hprocess : Process.parseFromBytes F a = Process.parseFromBytes F b :=
    hparse (fun m _ => process_unknown m) _
  have hend : End.parseFromBytes F a = End.parseFromBytes F b :=
    hparse (fun m _ => end_unknown m) _
  simp only [messageDispatch, Protobuf.over, hheader, honeshot, hbegin, hprocess, hend]

/-- `b` is `a` with unknown fields put in at one place, between two fields or at an end. The
runtime reads what is put in; what follows the place need not be readable. -/
inductive Extended (F : Wire.Format) : Bytes → Bytes → Prop where
  | insert {front extra : Bytes} {fs gs : List Wire.Field} (back : Bytes)
      (hfront : F.read front = some fs) (hextra : F.read extra = some gs)
      (hgs : ∀ g ∈ gs, 4 < g.1) : Extended F (front ++ back) (front ++ (extra ++ back))

theorem Extended.knownFields_eq (hF : F.Sequential) (h : Extended F a b) :
    knownFields F a = knownFields F b := by
  obtain ⟨back, hfront, hextra, hgs⟩ := h
  rename_i front extra fs gs
  have hnone : gs.filter known = [] := by
    rw [List.filter_eq_nil_iff]
    intro g hg hknown
    exact absurd (of_decide_eq_true hknown) (Nat.not_le.mpr (hgs g hg))
  rw [knownFields, knownFields, hF hfront, hF hfront, hF hextra]
  simp only [Option.map_map]
  refine congrArg (fun g => Option.map g (F.read back)) (funext fun rest => ?_)
  simp only [Function.comp, List.filter_append, hnone, List.nil_append]

/-- **A newer peer is understood**: unknown fields, in any number of messages, at any number of
places, change neither a context nor a callback. -/
theorem extensions_ignored (hF : F.Sequential) {S : Snap} {cancels : ProgressContext → Bool}
    {wire wire' : List Bytes} (h : List.Forall₂ (Relation.ReflTransGen (Extended F)) wire wire')
    (contexts : Contexts) :
    feed (.over F) S cancels contexts wire' = feed (.over F) S cancels contexts wire := by
  induction h generalizing contexts with
  | nil => rfl
  | @cons a b rest rest' hab hrest ih =>
    have hknown : knownFields F b = knownFields F a := by
      induction hab with
      | refl => rfl
      | tail _ hlast ih => exact (hlast.knownFields_eq hF).symm.trans ih
    rw [feed, feed, dispatch_known hknown, ih]

def plainOneshot : Bytes := Frame.writeToBytes .narrow (.oneshot ⟨.ONESHOT, Uuid.nil.bytes, [7]⟩)

/-- A varint under number nine in front of the message and a group under number seven after it. -/
def extendedOneshot : Bytes :=
  Wire.Format.narrow.write [(9, .varint 300)] ++ plainOneshot ++ [0x3b, 0x3c]

theorem extendedOneshot_extends :
    Relation.ReflTransGen (Extended .narrow) plainOneshot extendedOneshot := by
  have hfirst : Extended .narrow ([] ++ plainOneshot)
      ([] ++ (Wire.Format.narrow.write [(9, .varint 300)] ++ plainOneshot)) :=
    .insert _ rfl (by decide +kernel : Wire.Format.narrow.read _ = some [(9, .varint 300)])
      (by decide)
  have hlast : Extended .narrow (Wire.Format.narrow.write [(9, .varint 300)] ++ plainOneshot ++ [])
      (Wire.Format.narrow.write [(9, .varint 300)] ++ plainOneshot ++ ([0x3b, 0x3c] ++ [])) :=
    .insert _ (by decide +kernel : Wire.Format.narrow.read _ = some
      [(9, .varint 300), (2, .bytes Uuid.nil.bytes), (3, .bytes [7])])
      (by decide +kernel : Wire.Format.narrow.read _ = some [(7, .group)]) (by decide)
  rw [List.append_nil, List.append_nil] at hlast
  exact .tail (.single hfirst) hlast

theorem extensions_ignored_oneshot :
    feed (.over .narrow) .framed (fun _ => false) ∅ [extendedOneshot] =
      feed (.over .narrow) .framed (fun _ => false) ∅ [plainOneshot] ∧
    deliveries (feed (.over .narrow) .framed (fun _ => false) ∅ [extendedOneshot]).2.flatten =
      [(.nil, [7])] :=
  ⟨extensions_ignored (Wire.Format.coded_sequential .word) (.cons extendedOneshot_extends .nil) ∅,
    by decide +kernel⟩

/-- A group inside an unknown group is refused. -/
example : Wire.Format.narrow.read [0x3b, 0x3b, 0x3c, 0x3c] = none := by decide +kernel

end Wsmq.Receiver
