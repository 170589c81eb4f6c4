import Rdbms.Heap.Record
import Rdbms.Lib.FixedWidth

/-!
# The row codec

`Record::write` stores a row as the `FieldCodec` of the columns' types says, unless the sizes of the
columns add up to more than a `uint8_t` holds: then it throws. `Record::read` reads a stored row
back in its normal form.
-/

namespace Rdbms

namespace DbEngine
variable [FloatType] {types : List FieldType} {fields : List Bytes} {bytes : Bytes}
  {record : Record}

/-- The codec of the columns' types. -/
def rowCodec : FieldCodec FieldType Bytes UInt8 Exn where
  width := FieldType.size
  encode := FieldType.encode
  decode := FieldType.decode
  norm := FieldType.norm
  length_encode := FieldType.length_encode
  decode_encode := FieldType.decode_encode

/-- The sizes are added up in a `uint8_t`. -/
theorem foldl_size (types : List FieldType) (sum : Nat) :
    types.foldl (fun sum type => (sum + type.size) % 256) (sum % 256) =
      (sum + rowCodec.rowWidth types) % 256 := by
  induction types generalizing sum with
  | nil => rfl
  | cons type types ih =>
    have hsum : (sum % 256 + type.size) % 256 = (sum + type.size) % 256 := Nat.mod_add_mod _ _ _
    rw [List.foldl_cons, hsum, ih, FieldCodec.rowWidth_cons, Nat.add_assoc]
    rfl

/-- The accumulated size is the sum of the sizes modulo 256. -/
theorem recordSize_eq (types : List FieldType) :
    recordSize types = rowCodec.rowWidth types % 256 := by
  have h := foldl_size types 0
  rwa [Nat.zero_add] at h

/-- Rows of less than 256 bytes have their width as the record size. -/
theorem recordSize_of_lt (h : rowCodec.rowWidth types < 256) :
    recordSize types = rowCodec.rowWidth types := by
  rw [recordSize_eq, Nat.mod_eq_of_lt h]

/-- An `INT` column has four bytes of the row. -/
theorem four_le_rowWidth {i : Nat} (htype : types[i]? = some .int) :
    4 ≤ rowCodec.rowWidth types := by
  obtain ⟨before, after, rfl⟩ := List.append_of_mem (List.mem_of_getElem? htype)
  have hsum : rowCodec.rowWidth (before ++ .int :: after) =
      rowCodec.rowWidth before + (4 + rowCodec.rowWidth after) := by
    rw [FieldCodec.rowWidth, List.map_append, List.sum_append]
    rfl
  omega

/-- The write loop stores a row that fits. -/
theorem writeFields_of_encodes (h : rowCodec.Encodes types fields bytes) {bufferSize pos : Nat}
    (hfit : pos + rowCodec.rowWidth types ≤ bufferSize) :
    writeFields bufferSize pos types fields = .ok bytes := by
  induction h generalizing pos with
  | nil => rfl
  | @cons type field types fields b bytes hb _ ih =>
    have hwidth : rowCodec.rowWidth (type :: types) = type.size + rowCodec.rowWidth types := rfl
    have hb : type.encode field = .ok b := hb
    have hrest : writeFields bufferSize (pos + type.size) types fields = .ok bytes :=
      ih (by omega)
    unfold writeFields
    rw [if_neg (by omega)]
    simp only [hb, hrest]
    rfl

/-- What the write loop stores, and that it fits. -/
theorem encodes_of_writeFields {bufferSize pos : Nat} (hpos : pos ≤ bufferSize)
    (h : writeFields bufferSize pos types fields = .ok bytes) :
    rowCodec.Encodes types fields bytes ∧ pos + rowCodec.rowWidth types ≤ bufferSize := by
  induction types generalizing pos fields bytes with
  | nil =>
    cases h
    exact ⟨.nil, hpos⟩
  | cons type types ih =>
    have hwidth : rowCodec.rowWidth (type :: types) = type.size + rowCodec.rowWidth types := rfl
    unfold writeFields at h
    split_ifs at h with hover
    cases fields with
    | nil => cases h
    | cons field fields =>
      simp only at h
      cases hb : type.encode field with
      | error e =>
        rw [hb] at h
        cases h
      | ok b =>
        cases hrest : writeFields bufferSize (pos + type.size) types fields with
        | error e =>
          rw [hb, hrest] at h
          cases h
        | ok rest =>
          rw [hb, hrest] at h
          cases h
          obtain ⟨henc, hfit⟩ := ih (by omega) hrest
          exact ⟨.cons hb henc, by omega⟩

/-- When `Record::write` hands a buffer to the stream. -/
theorem Record.write_eq_ok : record.write types = .ok bytes ↔
    rowCodec.Encodes types record.fields bytes ∧ rowCodec.rowWidth types < 256 := by
  have hsize := recordSize_eq types
  constructor
  · intro h
    obtain ⟨henc, hfit⟩ := encodes_of_writeFields (Nat.zero_le _) h
    exact ⟨henc, by omega⟩
  · rintro ⟨henc, hfit⟩
    exact writeFields_of_encodes henc (by omega)

/-- A buffer has the size of a record. -/
theorem Record.length_write (h : record.write types = .ok bytes) :
    bytes.length = recordSize types := by
  obtain ⟨henc, hfit⟩ := write_eq_ok.1 h
  rw [henc.length, recordSize_of_lt hfit]

/-- `Record::read` decodes the row. -/
theorem readFields_eq (types : List FieldType) (buffer : Bytes) :
    readFields types buffer = rowCodec.decodeRow types buffer := by
  induction types generalizing buffer with
  | nil => rfl
  | cons type types ih =>
    rw [readFields, ih]
    rfl

/-- `Record::read` of a stored row. -/
theorem Record.read_of_write (h : record.write types = .ok bytes) (rec : Record) (rest : Bytes) :
    rec.read (some (bytes ++ rest)) types =
      (some rest, { rec with fields := rowCodec.normRow types record.fields }) := by
  have hlen := length_write h
  have hrow := (write_eq_ok.1 h).1.decodeRow []
  rw [List.append_nil] at hrow
  have hshort : ¬ (bytes ++ rest).length < recordSize types := by
    rw [List.length_append]
    omega
  rw [Record.read, if_neg hshort, ← hlen, List.take_left, List.drop_left, readFields_eq, hrow]

/-- A read of less than a record fails. -/
theorem Record.read_of_short (h : bytes.length < recordSize types) (rec : Record) :
    rec.read (some bytes) types = (none, rec) := if_pos h

end DbEngine

end Rdbms
