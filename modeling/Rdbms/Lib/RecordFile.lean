import Mathlib.Data.List.Basic
import Mathlib.Tactic.Ring

/-!
# Files of fixed-width records

A file that starts with a header of `base` bytes and goes on with records of `width` bytes each.
Its records are a list, and a byte offset names a record when it falls on the grid of the layout.
Reading at an offset that names no record gives nothing. Writing at the end of the file appends.
-/

namespace Rdbms

/-- The byte layout of a file of records. -/
structure Layout where
  /-- The bytes before the first record. -/
  base : Nat
  /-- The bytes of one record. -/
  width : Nat
  width_pos : 0 < width

namespace Layout
variable {α : Type*} (L : Layout)

/-- The offset of the `i`-th record. -/
def pos (i : Nat) : Int := L.base + L.width * i

/-- The record an offset names, if it falls on the grid. -/
def slot? (p : Int) : Option Nat :=
  if (L.base : Int) ≤ p ∧ (p - L.base) % L.width = 0 then some ((p - L.base) / L.width).toNat
  else none

/-- Read the record at an offset. -/
def read (f : List α) (p : Int) : Option α := (L.slot? p).bind (f[·]?)

/-- Write a record at an offset: over a record of the file, or at its end. -/
def write (f : List α) (p : Int) (a : α) : List α :=
  match L.slot? p with
  | none => f
  | some i => if i = f.length then f ++ [a] else f.set i a

/-- The offset just past the last record. -/
def endPos (f : List α) : Int := L.pos f.length

variable {L} {f g : List α} {a b : α} {i j : Nat} {p q : Int}

/-! ## Offsets -/

/-- The width of a record, as an offset. -/
theorem width_pos' : (0 : Int) < L.width := by exact_mod_cast L.width_pos

/-- The offset of a record names its slot. -/
@[simp] theorem slot?_pos : L.slot? (L.pos i) = some i := by
  have h : (L.width : Int) ≠ 0 := width_pos'.ne'
  have hnn : (0 : Int) ≤ L.width * i := by exact_mod_cast Nat.zero_le _
  have hle : (L.base : Int) ≤ L.base + L.width * i := by omega
  simp [slot?, pos, hle, Int.mul_ediv_cancel_left _ h]

/-- An offset that names a record is that record's offset. -/
theorem pos_of_slot? (h : L.slot? p = some i) : p = L.pos i := by
  unfold slot? at h
  split at h
  · next hp =>
    cases h
    have hdiv := Int.mul_ediv_add_emod (p - L.base) L.width
    have hnn : 0 ≤ (p - L.base) / L.width := Int.ediv_nonneg (by omega) (by omega)
    rw [pos, Int.toNat_of_nonneg hnn]
    rw [hp.2] at hdiv
    omega
  · cases h

/-- Two slots have two offsets. -/
theorem pos_inj (h : L.pos i = L.pos j) : i = j := by
  have := congrArg L.slot? h
  simpa using this

/-- Records stand behind the head of the file. -/
theorem base_le_pos : (L.base : Int) ≤ L.pos i := by
  have : (0 : Int) ≤ L.width * i := by exact_mod_cast Nat.zero_le _
  unfold pos; omega

/-- No offset is negative. -/
theorem pos_nonneg : 0 ≤ L.pos i := le_trans (by omega) (base_le_pos (L := L) (i := i))

/-- The offset `-1` stands for no record. -/
theorem pos_ne_neg_one : L.pos i ≠ -1 := by
  have := pos_nonneg (L := L) (i := i)
  omega

/-- The next record stands one width further. -/
theorem pos_succ : L.pos (i + 1) = L.pos i + L.width := by
  unfold pos; push_cast; ring

/-- The offset `-1` names no slot. -/
theorem slot?_neg_one : L.slot? (-1) = none := by
  unfold slot?; rw [if_neg]; omega

/-! ## Reading and writing -/

/-- What is read at a record's offset is the record. -/
@[simp] theorem read_pos : L.read f (L.pos i) = f[i]? := by simp [read]

/-- Nothing is read at the offset `-1`. -/
theorem read_neg_one : L.read f (-1) = none := by simp [read, slot?_neg_one]

/-- A read that gives a record names one of the file's. -/
theorem read_eq_some (h : L.read f p = some a) :
    ∃ i, ∃ _ : i < f.length, p = L.pos i ∧ f[i] = a := by
  unfold read at h
  obtain ⟨i, hi, hf⟩ := Option.bind_eq_some_iff.1 h
  obtain ⟨hlt, rfl⟩ := List.getElem?_eq_some_iff.1 hf
  exact ⟨i, hlt, pos_of_slot? hi, rfl⟩

/-- What is read is in the file. -/
theorem mem_of_read (h : L.read f p = some a) : a ∈ f := by
  obtain ⟨i, hlt, -, rfl⟩ := read_eq_some h
  exact List.getElem_mem hlt

/-- Nothing is read from an empty file. -/
theorem read_nil : L.read ([] : List α) p ≠ some a := fun h => nomatch mem_of_read h

/-- A record that is read is not at `-1`. -/
theorem ne_neg_one_of_read (h : L.read f p = some a) : p ≠ -1 := by
  rintro rfl
  rw [read_neg_one] at h; cases h

/-- No record stands in front of the file. -/
theorem nonneg_of_read (h : L.read f p = some a) : 0 ≤ p := by
  obtain ⟨i, -, rfl, -⟩ := read_eq_some h
  exact pos_nonneg

/-- Every record of a file is read at some offset. -/
theorem exists_read_of_mem (h : a ∈ f) : ∃ p, L.read f p = some a := by
  obtain ⟨i, hi, rfl⟩ := List.mem_iff_getElem.1 h
  exact ⟨L.pos i, by simp [hi]⟩

/-- A write within the file puts the record into its slot. -/
theorem write_pos_of_lt (h : i < f.length) : L.write f (L.pos i) a = f.set i a := by
  simp [write, (show i ≠ f.length by omega)]

/-- A write at the end appends the record. -/
@[simp] theorem write_endPos : L.write f (L.endPos f) a = f ++ [a] := by simp [write, endPos]

/-- Writing over the last record. -/
theorem write_last : L.write (f ++ [b]) (L.endPos f) a = f ++ [a] := by
  rw [endPos, write_pos_of_lt (by simp), List.set_append_right _ _ le_rfl, Nat.sub_self,
    List.set_cons_zero]

/-- A write brings in the record that is written only. -/
theorem mem_write (h : b ∈ L.write f p a) : b = a ∨ b ∈ f := by
  unfold write at h
  split at h
  · exact .inr h
  · split_ifs at h
    · exact (List.mem_append.1 h).elim .inr fun hb => .inl (List.mem_singleton.1 hb)
    · exact (List.mem_or_eq_of_mem_set h).symm

/-- Appending keeps what could be read. -/
theorem read_append (h : L.read f p = some a) : L.read (f ++ g) p = some a := by
  obtain ⟨i, hi, rfl, rfl⟩ := read_eq_some h
  rw [read_pos, List.getElem?_append_left hi, List.getElem?_eq_getElem hi]

/-- The appended record is read at the old end. -/
theorem read_endPos_append : L.read (f ++ [a]) (L.endPos f) = some a := by simp [endPos]

/-- What is read from an extended file is the appended record or was there before. -/
theorem read_append_inv (h : L.read (f ++ [b]) p = some a) :
    L.read f p = some a ∨ p = L.endPos f ∧ a = b := by
  obtain ⟨i, hi, rfl, rfl⟩ := read_eq_some h
  rcases Nat.lt_or_ge i f.length with hlt | hge
  · left; simp [hlt, List.getElem_append_left hlt]
  · have : i = f.length := by simp at hi; omega
    subst this
    right; simp [endPos]

/-- Appending a record adds one offset. -/
theorem read_append_singleton : L.read (f ++ [b]) q = if q = L.endPos f then some b
    else L.read f q := by
  split
  · next hq => rw [hq, read_endPos_append]
  · next hq =>
    cases h : L.read f q with
    | some a => exact read_append h
    | none =>
      refine Option.eq_none_iff_forall_ne_some.2 fun a ha => ?_
      rcases read_append_inv ha with hf | hf
      · rw [h] at hf; cases hf
      · exact hq hf.1

/-- The records of a file stand in front of its end. -/
theorem lt_endPos_of_read (h : L.read f p = some a) : p < L.endPos f := by
  obtain ⟨i, hi, rfl, -⟩ := read_eq_some h
  have hle : (i : Int) < f.length := by exact_mod_cast hi
  have := Int.mul_lt_mul_of_pos_left hle (width_pos' (L := L))
  unfold endPos pos
  omega

/-- The end of a file moves back when the file grows. -/
theorem endPos_le_append : L.endPos f ≤ L.endPos (f ++ g) := by
  have hle : (f.length : Int) ≤ (f ++ g).length := by simp
  have := Int.mul_le_mul_of_nonneg_left hle (width_pos' (L := L)).le
  unfold endPos pos
  omega

/-- There is no record at the end of the file. -/
theorem read_endPos : L.read f (L.endPos f) = none := by simp [endPos]

/-- A write over a record changes what is read at its offset only. -/
theorem read_write (h : L.read f p = some b) :
    L.read (L.write f p a) q = if q = p then some a else L.read f q := by
  obtain ⟨i, hi, rfl, -⟩ := read_eq_some h
  rw [write_pos_of_lt hi]
  split
  · next hq => subst hq; simp [hi]
  · next hq =>
    unfold read
    cases hs : L.slot? q with
    | none => rfl
    | some j =>
      have hne : i ≠ j := fun e => hq (by rw [pos_of_slot? hs, e])
      simp [List.getElem?_set_ne hne]

/-- A write over a record or at the end of the file. -/
theorem read_write_of_le (h : i ≤ f.length) :
    L.read (L.write f (L.pos i) a) q = if q = L.pos i then some a else L.read f q := by
  rcases Nat.lt_or_eq_of_le h with hlt | rfl
  · exact read_write (by rw [read_pos, List.getElem?_eq_getElem hlt])
  · rw [show L.pos f.length = L.endPos f from rfl, write_endPos, read_append_singleton]

/-- A record that is written over another is read in its place. -/
theorem read_write_self (h : L.read f p = some b) : L.read (L.write f p a) p = some a := by
  rw [read_write h, if_pos rfl]

/-- The other records are read as before. -/
theorem read_write_ne (h : L.read f p = some b) (hq : q ≠ p) :
    L.read (L.write f p a) q = L.read f q := by
  rw [read_write h, if_neg hq]

/-- A record that is written over another does not make the file longer. -/
theorem length_write (h : L.read f p = some b) : (L.write f p a).length = f.length := by
  obtain ⟨i, hi, rfl, -⟩ := read_eq_some h
  rw [write_pos_of_lt hi, List.length_set]

/-- A write of a record that agrees with the old one on `k` keeps the list of `k`s. -/
theorem map_write {β : Type*} (k : α → β) (h : L.read f p = some b) (hk : k a = k b) :
    (L.write f p a).map k = f.map k := by
  obtain ⟨i, hi, rfl, rfl⟩ := read_eq_some h
  rw [write_pos_of_lt hi]
  refine List.ext_getElem (by simp) fun j h1 _ => ?_
  rcases eq_or_ne i j with rfl | hne
  · simp [hk]
  · simp [hne]

/-- What is read after the first record has been changed. -/
theorem read_modifyHead (g : α → α) :
    L.read (f.modifyHead g) p = (L.read f p).map fun a => if L.slot? p = some 0 then g a else a := by
  unfold read
  cases hp : L.slot? p with
  | none => rfl
  | some i =>
    simp only [Option.bind_some, List.getElem?_modifyHead, Option.some.injEq]
    split_ifs <;> simp

end Layout

end Rdbms
