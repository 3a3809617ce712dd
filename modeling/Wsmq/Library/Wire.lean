import Mathlib.Data.Nat.Digits.Lemmas

/-! The protocol-buffer wire format.

A varint is a little-endian list of base-128 digits, each in one byte, all but
the last marked with the high bit. A field is a tag (number and wire type) and a
value; a message on the wire is a sequence of fields. `fields` splits a byte string
into its fields, in order, or fails; what a schema makes of the fields is a fold over
them. Unknown fields are fields like any other, a group is skipped whole.

What generated code is linked with is a `Format`: a reader and a writer of fields, with
what is asked of them as predicates. `Format.coded` is the wire format, once it is said
how the length of a byte string is coded (`Lengths`): in full, or in a 32-bit word. -/
namespace Wire

/-! ### Varints -/

/-- The digits of `n`, at least one. -/
def digits (n : Nat) : List Nat := if n = 0 then [0] else Nat.digits 128 n

/-- One byte a digit, the high bit on all but the last. -/
def mark : List Nat → List UInt8
  | [] => []
  | [d] => [UInt8.ofNat d]
  | d :: rest => UInt8.ofNat (d + 128) :: mark rest

def writeVarint (n : Nat) : List UInt8 := mark (digits n)

/-- The digits up to the first byte without the high bit. -/
def readDigits : List UInt8 → Option (List Nat × List UInt8)
  | [] => none
  | b :: rest =>
    if b.toNat < 128 then some ([b.toNat], rest)
    else (readDigits rest).map fun r => ((b.toNat - 128) :: r.1, r.2)

/-- A varint of any size. -/
def readLength (bs : List UInt8) : Option (Nat × List UInt8) :=
  (readDigits bs).map fun r => (Nat.ofDigits 128 r.1, r.2)

/-- At most ten bytes; the bits past the 64th are lost. -/
def readVarint64 (bs : List UInt8) : Option (UInt64 × List UInt8) :=
  (readDigits bs).bind fun r =>
    if r.1.length ≤ 10 then some (UInt64.ofNat (Nat.ofDigits 128 r.1), r.2) else none

theorem digits_ne_nil (n : Nat) : digits n ≠ [] := by
  unfold digits
  split
  · simp
  · exact Nat.digits_ne_nil_iff_ne_zero.mpr ‹_›

theorem digits_lt {n d : Nat} (h : d ∈ digits n) : d < 128 := by
  unfold digits at h
  split at h
  · simp at h
    omega
  · exact Nat.digits_lt_base (by decide) h

theorem ofDigits_digits (n : Nat) : Nat.ofDigits 128 (digits n) = n := by
  unfold digits
  split
  · simp [*]
  · exact Nat.ofDigits_digits 128 n

theorem digits_length {n : Nat} (h : n < 2 ^ 64) : (digits n).length ≤ 10 := by
  unfold digits
  split
  · simp
  · refine (Nat.digits_length_le_iff (by decide) n).mpr (Nat.lt_trans h (by decide))

theorem readDigits_mark (ds : List Nat) (rest : List UInt8) (hne : ds ≠ [])
    (hlt : ∀ d ∈ ds, d < 128) : readDigits (mark ds ++ rest) = some (ds, rest) := by
  induction ds with
  | nil => exact absurd rfl hne
  | cons d tail ih =>
    have hd : d < 128 := hlt d (List.mem_cons_self ..)
    cases tail with
    | nil =>
      have hb : (UInt8.ofNat d).toNat = d := by
        rw [UInt8.toNat_ofNat']
        omega
      simp only [mark, List.singleton_append, readDigits, hb, hd, if_true]
    | cons d' tail' =>
      have hb : (UInt8.ofNat (d + 128)).toNat = d + 128 := by
        rw [UInt8.toNat_ofNat']
        omega
      have htail := ih (by simp) (fun x hx => hlt x (List.mem_cons_of_mem d hx))
      rw [mark, List.cons_append, readDigits, hb, if_neg (by omega), htail]
      · simp
      · simp

theorem readLength_write (n : Nat) (rest : List UInt8) :
    readLength (writeVarint n ++ rest) = some (n, rest) := by
  rw [readLength, writeVarint, readDigits_mark _ _ (digits_ne_nil n) fun _ h => digits_lt h,
    Option.map_some, ofDigits_digits]

theorem readVarint64_write (n : UInt64) (rest : List UInt8) :
    readVarint64 (writeVarint n.toNat ++ rest) = some (n, rest) := by
  rw [readVarint64, writeVarint, readDigits_mark _ _ (digits_ne_nil _) fun _ h => digits_lt h,
    Option.bind_some, if_pos (digits_length n.toNat_lt), ofDigits_digits, UInt64.ofNat_toNat]

theorem readDigits_length {bs rest : List UInt8} {ds : List Nat}
    (h : readDigits bs = some (ds, rest)) : rest.length < bs.length := by
  induction bs generalizing ds with
  | nil => cases h
  | cons b tail ih =>
    rw [readDigits] at h
    split at h
    · cases h
      simp
    · obtain ⟨⟨ds', rest'⟩, hr, he⟩ := Option.map_eq_some_iff.mp h
      cases he
      exact Nat.lt_succ_of_lt (ih hr)

theorem readVarint64_length {bs rest : List UInt8} {n : UInt64}
    (h : readVarint64 bs = some (n, rest)) : rest.length < bs.length := by
  obtain ⟨⟨ds, r⟩, hd, he⟩ := Option.bind_eq_some_iff.mp h
  split at he
  · cases he
    exact readDigits_length hd
  · cases he

theorem readLength_length {bs rest : List UInt8} {n : Nat}
    (h : readLength bs = some (n, rest)) : rest.length < bs.length := by
  obtain ⟨⟨ds, r⟩, hd, he⟩ := Option.map_eq_some_iff.mp h
  cases he
  exact readDigits_length hd

section
variable {bs rest : List UInt8} (more : List UInt8)

theorem readDigits_append {ds : List Nat} (h : readDigits bs = some (ds, rest)) :
    readDigits (bs ++ more) = some (ds, rest ++ more) := by
  induction bs generalizing ds with
  | nil => cases h
  | cons b tail ih =>
    rw [readDigits] at h
    rw [List.cons_append, readDigits]
    split at h
    · rw [if_pos ‹_›]
      cases h
      rfl
    · rw [if_neg ‹_›]
      obtain ⟨⟨ds', rest'⟩, hr, he⟩ := Option.map_eq_some_iff.mp h
      cases he
      rw [ih hr]
      rfl

theorem readLength_append {n : Nat} (h : readLength bs = some (n, rest)) :
    readLength (bs ++ more) = some (n, rest ++ more) := by
  obtain ⟨⟨ds, r⟩, hd, he⟩ := Option.map_eq_some_iff.mp h
  cases he
  rw [readLength, readDigits_append more hd]
  rfl

theorem readVarint64_append {n : UInt64} (h : readVarint64 bs = some (n, rest)) :
    readVarint64 (bs ++ more) = some (n, rest ++ more) := by
  obtain ⟨⟨ds, r⟩, hd, he⟩ := Option.bind_eq_some_iff.mp h
  rw [readVarint64, readDigits_append more hd, Option.bind_some]
  split at he
  · cases he
    exact if_pos ‹_›
  · cases he

end

/-! ### Lengths -/

/-- How the length of a byte string is coded in front of it. Reading takes at least one
byte, and what it takes does not depend on what comes after. -/
structure Lengths where
  write : Nat → List UInt8
  read : List UInt8 → Option (Nat × List UInt8)
  read_length : ∀ {bs rest n}, read bs = some (n, rest) → rest.length < bs.length
  read_append : ∀ {bs rest n} more, read bs = some (n, rest) →
    read (bs ++ more) = some (n, rest ++ more)

namespace Lengths

/-- The length reads back. -/
def Keeps (L : Lengths) (n : Nat) : Prop := ∀ rest, L.read (L.write n ++ rest) = some (n, rest)

/-- A length of any size. -/
def full : Lengths where
  write := writeVarint
  read := readLength
  read_length := readLength_length
  read_append := fun more h => readLength_append more h

/-- A length in a word of 32 bits: writing and reading lose the rest, and more than ten
bytes are refused. -/
def word : Lengths where
  write := fun n => writeVarint (n % 2 ^ 32)
  read := fun bs => (readVarint64 bs).map fun r => (r.1.toNat % 2 ^ 32, r.2)
  read_length := by
    intro bs rest n h
    obtain ⟨r, hr, he⟩ := Option.map_eq_some_iff.mp h
    cases he
    exact readVarint64_length hr
  read_append := by
    intro bs rest n more h
    obtain ⟨r, hr, he⟩ := Option.map_eq_some_iff.mp h
    cases he
    rw [readVarint64_append more hr]
    rfl

theorem full_keeps (n : Nat) : full.Keeps n := fun rest => readLength_write n rest

theorem word_keeps {n : Nat} (h : n < 2 ^ 32) : word.Keeps n := by
  intro rest
  have hlow : n % 2 ^ 32 = n := Nat.mod_eq_of_lt h
  have hn : (UInt64.ofNat n).toNat = n := by
    rw [UInt64.toNat_ofNat']
    omega
  have hread := readVarint64_write (UInt64.ofNat n) rest
  rw [hn] at hread
  show (readVarint64 (writeVarint (n % 2 ^ 32) ++ rest)).map _ = _
  rw [hlow, hread, Option.map_some, hn, hlow]

end Lengths

/-! ### Fields -/

inductive Value where
  | varint (n : UInt64)
  | fixed64 (bytes : List UInt8)
  | bytes (bytes : List UInt8)
  | group
  | fixed32 (bytes : List UInt8)
deriving DecidableEq

/-- A field: its number and its value. -/
abbrev Field := Nat × Value

def take (n : Nat) (bs : List UInt8) : Option (List UInt8 × List UInt8) :=
  if n ≤ bs.length then some (bs.take n, bs.drop n) else none

/-- A tag: field number and wire type. Field number zero and the wire types six
and seven do not exist. -/
def readTag (bs : List UInt8) : Option (Nat × Nat × List UInt8) :=
  (readVarint64 bs).bind fun r =>
    let tag := r.1.toNat % 2 ^ 32
    if tag / 8 = 0 ∨ 5 < tag % 8 then none else some (tag / 8, tag % 8, r.2)

section
variable (L : Lengths)

/-- The value of a field that is not a group. -/
def readScalar (wireType : Nat) (bs : List UInt8) : Option (Value × List UInt8) :=
  match wireType with
  | 0 => (readVarint64 bs).map fun r => (.varint r.1, r.2)
  | 1 => (take 8 bs).map fun r => (.fixed64 r.1, r.2)
  | 2 => (L.read bs).bind fun r => (take r.1 r.2).map fun r => (.bytes r.1, r.2)
  | 5 => (take 4 bs).map fun r => (.fixed32 r.1, r.2)
  | _ => none

/-- Past the end of the group. A group inside it is refused. -/
def skipGroup : Nat → List UInt8 → Option (List UInt8)
  | 0, _ => none
  | fuel + 1, bs =>
    (readTag bs).bind fun r =>
      if r.2.1 = 4 then some r.2.2
      else (readScalar L r.2.1 r.2.2).bind fun v => skipGroup fuel v.2

def readValue (wireType : Nat) (bs : List UInt8) : Option (Value × List UInt8) :=
  if wireType = 3 then (skipGroup L bs.length bs).map fun rest => (.group, rest)
  else readScalar L wireType bs

def readField (bs : List UInt8) : Option (Field × List UInt8) :=
  (readTag bs).bind fun r => (readValue L r.2.1 r.2.2).map fun v => ((r.1, v.1), v.2)

def fieldsFuel : Nat → List UInt8 → Option (List Field)
  | _, [] => some []
  | 0, _ :: _ => none
  | fuel + 1, b :: bs =>
    (readField L (b :: bs)).bind fun r => (fieldsFuel fuel r.2).map fun fs => r.1 :: fs

/-- Every field of a byte string, in order. A field takes at least one byte, so
as many steps as there are bytes suffice (`fieldsFuel_eq`). -/
def fields (bs : List UInt8) : Option (List Field) := fieldsFuel L bs.length bs

end

variable {L : Lengths}

theorem take_length {n : Nat} {bs v rest : List UInt8} (h : take n bs = some (v, rest)) :
    rest.length ≤ bs.length := by
  unfold take at h
  split at h
  · cases h
    simp
  · cases h

theorem readTag_length {bs rest : List UInt8} {n w : Nat} (h : readTag bs = some (n, w, rest)) :
    rest.length < bs.length := by
  obtain ⟨⟨tag, r⟩, hr, he⟩ := Option.bind_eq_some_iff.mp h
  dsimp only at he
  split at he
  · cases he
  · cases he
    exact readVarint64_length hr

theorem readScalar_length {w : Nat} {bs rest : List UInt8} {v : Value}
    (h : readScalar L w bs = some (v, rest)) : rest.length ≤ bs.length := by
  unfold readScalar at h
  split at h
  · obtain ⟨⟨n, r⟩, hr, he⟩ := Option.map_eq_some_iff.mp h
    cases he
    exact Nat.le_of_lt (readVarint64_length hr)
  · obtain ⟨⟨b, r⟩, hr, he⟩ := Option.map_eq_some_iff.mp h
    cases he
    exact take_length hr
  · obtain ⟨⟨n, r⟩, hr, he⟩ := Option.bind_eq_some_iff.mp h
    obtain ⟨⟨b, r'⟩, hr', he'⟩ := Option.map_eq_some_iff.mp he
    cases he'
    exact Nat.le_trans (take_length hr') (Nat.le_of_lt (L.read_length hr))
  · obtain ⟨⟨b, r⟩, hr, he⟩ := Option.map_eq_some_iff.mp h
    cases he
    exact take_length hr
  · cases h

theorem skipGroup_length {fuel : Nat} {bs rest : List UInt8}
    (h : skipGroup L fuel bs = some rest) : rest.length ≤ bs.length := by
  induction fuel generalizing bs with
  | zero => cases h
  | succ fuel ih =>
    rw [skipGroup] at h
    obtain ⟨⟨n, w, r⟩, hr, he⟩ := Option.bind_eq_some_iff.mp h
    have hlt := Nat.le_of_lt (readTag_length hr)
    dsimp only at he
    split at he
    · cases he
      exact hlt
    · obtain ⟨⟨v, r'⟩, hv, he'⟩ := Option.bind_eq_some_iff.mp he
      exact Nat.le_trans (Nat.le_trans (ih he') (readScalar_length hv)) hlt

theorem readField_length {bs rest : List UInt8} {f : Field} (h : readField L bs = some (f, rest)) :
    rest.length < bs.length := by
  obtain ⟨⟨n, w, r⟩, hr, he⟩ := Option.bind_eq_some_iff.mp h
  obtain ⟨⟨v, r'⟩, hv, he'⟩ := Option.map_eq_some_iff.mp he
  cases he'
  refine Nat.lt_of_le_of_lt ?_ (readTag_length hr)
  unfold readValue at hv
  split at hv
  · obtain ⟨r'', hs, he''⟩ := Option.map_eq_some_iff.mp hv
    cases he''
    exact skipGroup_length hs
  · exact readScalar_length hv

/-- Fuel beyond the number of bytes changes nothing. -/
theorem fieldsFuel_eq {fuel : Nat} {bs : List UInt8} (h : bs.length ≤ fuel) :
    fieldsFuel L fuel bs = fields L bs := by
  suffices ∀ (fuel fuel' : Nat) (bs : List UInt8), bs.length ≤ fuel → bs.length ≤ fuel' →
      fieldsFuel L fuel bs = fieldsFuel L fuel' bs from this _ _ _ h (Nat.le_refl _)
  intro fuel
  induction fuel with
  | zero =>
    intro fuel' bs hb _
    have : bs = [] := by simpa using hb
    subst this
    cases fuel' <;> rfl
  | succ fuel ih =>
    intro fuel' bs hb hb'
    cases bs with
    | nil => cases fuel' <;> rfl
    | cons b bs =>
      cases fuel' with
      | zero => simp at hb'
      | succ fuel' =>
        rw [fieldsFuel, fieldsFuel]
        cases hr : readField L (b :: bs) with
        | none => rfl
        | some r =>
          have hlt := readField_length hr
          simp only [List.length_cons] at hb hb' hlt
          simp only [Option.bind_some, ih fuel' r.2 (by omega) (by omega)]

/-! ### A longer string -/

section
variable {bs rest : List UInt8} (more : List UInt8)

theorem take_append {n : Nat} {v : List UInt8} (h : take n bs = some (v, rest)) :
    take n (bs ++ more) = some (v, rest ++ more) := by
  unfold take at h ⊢
  split at h
  · cases h
    rw [if_pos (by simp; omega), List.take_append_of_le_length ‹_›,
      List.drop_append_of_le_length ‹_›]
  · cases h

theorem readTag_append {n w : Nat} (h : readTag bs = some (n, w, rest)) :
    readTag (bs ++ more) = some (n, w, rest ++ more) := by
  obtain ⟨⟨tag, r⟩, hr, he⟩ := Option.bind_eq_some_iff.mp h
  rw [readTag, readVarint64_append more hr, Option.bind_some]
  dsimp only at he ⊢
  split at he
  · cases he
  · cases he
    exact if_neg ‹_›

theorem readScalar_append {w : Nat} {v : Value} (h : readScalar L w bs = some (v, rest)) :
    readScalar L w (bs ++ more) = some (v, rest ++ more) := by
  unfold readScalar at h ⊢
  split at h
  · obtain ⟨⟨n, r⟩, hr, he⟩ := Option.map_eq_some_iff.mp h
    cases he
    rw [readVarint64_append more hr]
    rfl
  · obtain ⟨⟨b, r⟩, hr, he⟩ := Option.map_eq_some_iff.mp h
    cases he
    rw [take_append more hr]
    rfl
  · obtain ⟨⟨n, r⟩, hr, he⟩ := Option.bind_eq_some_iff.mp h
    obtain ⟨⟨b, r'⟩, hr', he'⟩ := Option.map_eq_some_iff.mp he
    cases he'
    rw [L.read_append more hr, Option.bind_some, take_append more hr']
    rfl
  · obtain ⟨⟨b, r⟩, hr, he⟩ := Option.map_eq_some_iff.mp h
    cases he
    rw [take_append more hr]
    rfl
  · cases h

theorem skipGroup_append {fuel fuel' : Nat} (hfuel : fuel ≤ fuel')
    (h : skipGroup L fuel bs = some rest) :
    skipGroup L fuel' (bs ++ more) = some (rest ++ more) := by
  induction fuel generalizing fuel' bs with
  | zero => cases h
  | succ fuel ih =>
    obtain ⟨fuel', rfl⟩ : ∃ n, fuel' = n + 1 := ⟨fuel' - 1, by omega⟩
    have hle : fuel ≤ fuel' := Nat.le_of_succ_le_succ hfuel
    rw [skipGroup] at h ⊢
    obtain ⟨⟨n, w, r⟩, hr, he⟩ := Option.bind_eq_some_iff.mp h
    rw [readTag_append more hr, Option.bind_some]
    dsimp only at he ⊢
    split at he
    · cases he
      rw [if_pos ‹_›]
    · rw [if_neg ‹_›]
      obtain ⟨⟨v, r'⟩, hv, he'⟩ := Option.bind_eq_some_iff.mp he
      rw [readScalar_append more hv, Option.bind_some]
      exact ih hle he'

theorem readField_append {f : Field} (h : readField L bs = some (f, rest)) :
    readField L (bs ++ more) = some (f, rest ++ more) := by
  obtain ⟨⟨n, w, r⟩, hr, he⟩ := Option.bind_eq_some_iff.mp h
  obtain ⟨⟨v, r'⟩, hv, he'⟩ := Option.map_eq_some_iff.mp he
  cases he'
  rw [readField, readTag_append more hr, Option.bind_some]
  unfold readValue at hv ⊢
  dsimp only at hv ⊢
  split at hv
  · rw [if_pos ‹_›]
    obtain ⟨r'', hs, he''⟩ := Option.map_eq_some_iff.mp hv
    cases he''
    rw [skipGroup_append more (by simp) hs]
    rfl
  · rw [if_neg ‹_›, readScalar_append more hv]
    rfl

end

/-- **A string that splits into fields is read in front of any other.** -/
theorem fields_append {a : List UInt8} {fs : List Field} (h : fields L a = some fs)
    (b : List UInt8) : fields L (a ++ b) = (fields L b).map (fs ++ ·) := by
  induction hn : a.length using Nat.strongRecOn generalizing a fs with
  | ind n ih =>
    cases a with
    | nil =>
      cases h
      simp
    | cons x a =>
      obtain ⟨⟨f, rest⟩, hf, h⟩ := Option.bind_eq_some_iff.mp h
      have hlt := readField_length hf
      rw [fieldsFuel_eq (by simpa [Nat.lt_succ_iff] using hlt)] at h
      obtain ⟨gs, hgs, rfl⟩ := Option.map_eq_some_iff.mp h
      have hmore := readField_append b hf
      rw [List.cons_append] at hmore ⊢
      show fieldsFuel L ((a ++ b).length + 1) (x :: (a ++ b)) = _
      rw [fieldsFuel, hmore, Option.bind_some,
        fieldsFuel_eq (by simp only [List.length_append, List.length_cons] at hlt ⊢; omega),
        ih rest.length (hn ▸ hlt) hgs rfl, Option.map_map]
      rfl

/-! ### Byte strings are parts of the string -/

theorem readField_bytes {bs rest b : List UInt8} {n : Nat}
    (h : readField L bs = some ((n, .bytes b), rest)) : b.length + rest.length ≤ bs.length := by
  obtain ⟨⟨k, w, r⟩, hr, he⟩ := Option.bind_eq_some_iff.mp h
  obtain ⟨⟨v, r'⟩, hv, he'⟩ := Option.map_eq_some_iff.mp he
  cases he'
  refine Nat.le_trans ?_ (Nat.le_of_lt (readTag_length hr))
  unfold readValue at hv
  split at hv
  · obtain ⟨_, -, hgroup⟩ := Option.map_eq_some_iff.mp hv
    cases hgroup
  · unfold readScalar at hv
    split at hv
    · obtain ⟨_, -, hvarint⟩ := Option.map_eq_some_iff.mp hv
      cases hvarint
    · obtain ⟨_, -, hfixed⟩ := Option.map_eq_some_iff.mp hv
      cases hfixed
    · obtain ⟨⟨m, tail⟩, hlength, hv⟩ := Option.bind_eq_some_iff.mp hv
      obtain ⟨⟨c, r''⟩, htake, heq⟩ := Option.map_eq_some_iff.mp hv
      cases heq
      have hle : tail.length ≤ r.length := Nat.le_of_lt (L.read_length hlength)
      dsimp only at htake ⊢
      unfold take at htake
      split at htake
      · cases htake
        rw [List.length_take, List.length_drop]
        omega
      · cases htake
    · obtain ⟨_, -, hfixed⟩ := Option.map_eq_some_iff.mp hv
      cases hfixed
    · cases hv

/-- No field is longer than the string it was read from. -/
theorem fields_bytes {bs : List UInt8} {fs : List Field} (h : fields L bs = some fs) {n : Nat}
    {b : List UInt8} (hmem : (n, .bytes b) ∈ fs) : b.length ≤ bs.length := by
  induction hn : bs.length using Nat.strongRecOn generalizing bs fs with
  | ind k ih =>
    cases bs with
    | nil =>
      cases h
      cases hmem
    | cons x bs =>
      obtain ⟨⟨f, rest⟩, hf, h⟩ := Option.bind_eq_some_iff.mp h
      have hlt := readField_length hf
      rw [fieldsFuel_eq (by simpa [Nat.lt_succ_iff] using hlt)] at h
      obtain ⟨gs, hgs, rfl⟩ := Option.map_eq_some_iff.mp h
      rcases List.mem_cons.mp hmem with rfl | hmem
      · have hle := readField_bytes hf
        omega
      · have hle := ih rest.length (hn ▸ hlt) hgs hmem rfl
        omega

/-! ### The writer -/

def wireType : Value → Nat
  | .varint _ => 0
  | .fixed64 _ => 1
  | .bytes _ => 2
  | .group => 3
  | .fixed32 _ => 5

section
variable (L : Lengths)

def writeValue : Value → List UInt8
  | .varint n => writeVarint n.toNat
  | .bytes b => L.write b.length ++ b
  | .fixed64 b | .fixed32 b => b
  | .group => []

def writeField (f : Field) : List UInt8 :=
  writeVarint (f.1 * 8 + wireType f.2) ++ writeValue L f.2

def encode (fs : List Field) : List UInt8 := (fs.map (writeField L)).flatten

end

/-- The fields proto3 schemas are written with: a field number that fits a tag,
a varint or a byte string. -/
def Plain (f : Field) : Prop :=
  0 < f.1 ∧ f.1 < 2 ^ 29 ∧ ((∃ n, f.2 = .varint n) ∨ ∃ b, f.2 = .bytes b)

theorem readTag_write {n w : Nat} (hn : 0 < n) (hlt : n < 2 ^ 29) (hw : w ≤ 5) (rest : List UInt8) :
    readTag (writeVarint (n * 8 + w) ++ rest) = some (n, w, rest) := by
  have hv : (UInt64.ofNat (n * 8 + w)).toNat = n * 8 + w := by
    rw [UInt64.toNat_ofNat']
    omega
  have hr := readVarint64_write (UInt64.ofNat (n * 8 + w)) rest
  rw [hv] at hr
  have hmod : (n * 8 + w) % 2 ^ 32 = n * 8 + w := Nat.mod_eq_of_lt (by omega)
  have hdiv : (n * 8 + w) / 8 = n := by omega
  have hrem : (n * 8 + w) % 8 = w := by omega
  rw [readTag, hr, Option.bind_some]
  simp only [hv, hmod, hdiv, hrem]
  rw [if_neg (by omega)]

/-- A field whose length, where it has one, reads back. -/
def Kept (L : Lengths) (f : Field) : Prop := Plain f ∧ ∀ b, f.2 = .bytes b → L.Keeps b.length

theorem readField_write {f : Field} (h : Kept L f) (rest : List UInt8) :
    readField L (writeField L f ++ rest) = some (f, rest) := by
  obtain ⟨n, v⟩ := f
  obtain ⟨⟨hpos, hlt, hv⟩, hkeeps⟩ := h
  have hw : wireType v ≤ 5 := by cases v <;> simp [wireType]
  rw [readField, writeField, List.append_assoc, readTag_write hpos hlt hw, Option.bind_some]
  obtain ⟨m, rfl⟩ | ⟨b, rfl⟩ := hv
  · simp only [readValue, wireType, writeValue, readScalar, readVarint64_write]
    rfl
  · have htake : take b.length (b ++ rest) = some (b, rest) := by simp [take]
    simp only [readValue, wireType, writeValue, readScalar, List.append_assoc, hkeeps b rfl _,
      Option.bind_some, htake]
    rfl

theorem fields_cons {f : Field} (h : Kept L f) (rest : List UInt8) :
    fields L (writeField L f ++ rest) = (fields L rest).map (f :: ·) := by
  have hr := readField_write h rest
  have hlt := readField_length hr
  cases hb : writeField L f ++ rest with
  | nil =>
    rw [hb] at hlt
    simp at hlt
  | cons b bs =>
    rw [hb] at hr hlt
    show fieldsFuel L (bs.length + 1) (b :: bs) = _
    rw [fieldsFuel, hr, Option.bind_some, fieldsFuel_eq (by simpa [Nat.lt_succ_iff] using hlt)]

/-- **The reader inverts the writer.** -/
theorem fields_encode {fs : List Field} (h : ∀ f ∈ fs, Kept L f) :
    fields L (encode L fs) = some fs := by
  induction fs with
  | nil => rfl
  | cons f rest ih =>
    rw [encode, List.map_cons, List.flatten_cons, fields_cons (h f (List.mem_cons_self ..))]
    rw [← encode, ih fun g hg => h g (List.mem_cons_of_mem f hg)]
    rfl

/-! ### Sizes -/

theorem mark_length (ds : List Nat) : (mark ds).length = ds.length := by
  induction ds with
  | nil => rfl
  | cons d tail ih =>
    cases tail with
    | nil => rfl
    | cons d' tail' =>
      show (mark (d' :: tail')).length + 1 = _
      rw [ih, List.length_cons, List.length_cons, List.length_cons]

/-- A varint takes a byte for every seven bits, and one for zero. -/
theorem writeVarint_length_le {n k : Nat} (hk : 0 < k) :
    (writeVarint n).length ≤ k ↔ n < 128 ^ k := by
  rw [writeVarint, mark_length, digits]
  split
  · subst n
    exact iff_of_true hk (Nat.pow_pos (by decide))
  · exact Nat.digits_length_le_iff (by decide) n

theorem writeVarint_length {n k : Nat} (hlow : 128 ^ (k + 1) ≤ n) (hhigh : n < 128 ^ (k + 2)) :
    (writeVarint n).length = k + 2 := by
  have hle := (writeVarint_length_le (by omega)).mpr hhigh
  have hlt := mt (writeVarint_length_le (by omega)).mp (Nat.not_lt.mpr hlow)
  omega

theorem writeVarint_length_one {n : Nat} (h : n < 128) : (writeVarint n).length = 1 := by
  have hle := (writeVarint_length_le (k := 1) (by decide)).mpr (by simpa using h)
  have hne : writeVarint n ≠ [] := by
    rw [← List.length_pos_iff, writeVarint, mark_length, List.length_pos_iff]
    exact digits_ne_nil n
  have := List.length_pos_iff.mpr hne
  omega

/-- The tag of a field with a number below sixteen is one byte. -/
theorem writeField_length {f : Field} (h : f.1 < 16) :
    (writeField L f).length = 1 + (writeValue L f.2).length := by
  have hw : wireType f.2 ≤ 5 := by cases f.2 <;> simp [wireType]
  rw [writeField, List.length_append, writeVarint_length_one (by omega)]

theorem encode_append (fs gs : List Field) :
    encode L (fs ++ gs) = encode L fs ++ encode L gs := by
  rw [encode, encode, encode, List.map_append, List.flatten_append]

/-- How long the fields are with their lengths in full. -/
def size (fs : List Field) : Nat := (encode .full fs).length

theorem size_append (fs gs : List Field) : size (fs ++ gs) = size fs + size gs := by
  rw [size, encode_append, List.length_append]
  rfl

theorem bytes_size {fs : List Field} {n : Nat} {b : List UInt8} (h : (n, .bytes b) ∈ fs) :
    b.length ≤ size fs := by
  obtain ⟨front, back, rfl⟩ := List.append_of_mem h
  simp only [size, encode, writeField, writeValue, List.map_append, List.map_cons,
    List.flatten_append, List.flatten_cons, List.length_append]
  omega

/-! ### Formats -/

/-- A reader and a writer of fields. -/
structure Format where
  read : List UInt8 → Option (List Field)
  write : List Field → List UInt8

namespace Format

/-- Fields that are shorter than `bound` read back as they were written. -/
def Inverts (F : Format) (bound : Nat) : Prop :=
  ∀ fs, (∀ f ∈ fs, Plain f) → size fs < bound → F.read (F.write fs) = some fs

/-- One field is read after the other: a string that splits into fields is read in front of
any other. -/
def Sequential (F : Format) : Prop :=
  ∀ {a fs}, F.read a = some fs → ∀ b, F.read (a ++ b) = (F.read b).map (fs ++ ·)

/-- No byte string is longer than the string it was read from. -/
def Bounded (F : Format) : Prop :=
  ∀ {bs fs n b}, F.read bs = some fs → (n, .bytes b) ∈ fs → b.length ≤ bs.length

/-- The wire format, its lengths coded by `L`. -/
def coded (L : Lengths) : Format := ⟨fields L, encode L⟩

/-- Lengths of any size. -/
def standard : Format := coded .full

/-- Lengths in 32 bits. -/
def narrow : Format := coded .word

theorem standard_inverts (bound : Nat) : standard.Inverts bound :=
  fun _ hplain _ => fields_encode fun f hf => ⟨hplain f hf, fun b _ => Lengths.full_keeps b.length⟩

/-- What is shorter than `2 ^ 32` has no length that is cut. -/
theorem narrow_inverts : narrow.Inverts (2 ^ 32) := by
  intro fs hplain hsize
  refine fields_encode fun f hf => ⟨hplain f hf, fun b hb => Lengths.word_keeps ?_⟩
  obtain ⟨n, v⟩ := f
  obtain rfl : v = .bytes b := hb
  exact Nat.lt_of_le_of_lt (bytes_size hf) hsize

theorem coded_sequential (L : Lengths) : (coded L).Sequential := fun h b => fields_append h b

theorem coded_bounded (L : Lengths) : (coded L).Bounded := fun h hmem => fields_bytes h hmem

end Format
end Wire
