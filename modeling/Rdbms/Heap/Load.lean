import Rdbms.Heap.Append
import Rdbms.Heap.Filter

/-!
# Loading the rows

`load` reads as many records as `record_count` says, one behind the other. When the stream can be
opened and the data file has that many, these are the records that `read` finds at the multiples of
the record size (`load_of_readable`); otherwise one of them is empty (`load_of_not_readable`).
-/

namespace Rdbms

namespace DbEngine
variable [FloatType] {h : HeapFile} {types : List FieldType} {i count : Nat} {bytes : Bytes}

/-! ## The fields of a record -/

/-- The number in a field. -/
def Record.intAt (record : Record) (i : Nat) : Except Exn Int :=
  (HeapFile.vectorAt record.fields i).bind stoi

/-- The field of a column is decoded by its type. -/
theorem readFields_getElem? {type : FieldType} (htype : types[i]? = some type) (buffer : Bytes) :
    ∃ slice, (readFields types buffer)[i]? = some (type.decode slice) := by
  induction types generalizing i buffer with
  | nil => cases htype
  | cons first types ih =>
    cases i with
    | zero =>
      cases htype
      exact ⟨_, rfl⟩
    | succ i => exact ih htype _

omit [FloatType] in
/-- Four bytes are a number of 32 bits. -/
theorem toInt32_bounds (z : Int) : -2 ^ 31 ≤ toInt32 z ∧ toInt32 z < 2 ^ 31 := by
  unfold toInt32
  omega

/-- Whatever the bytes are, an `INT` field that has been read is a number. -/
theorem intAt_readFields (htype : types[i]? = some .int) (buffer : Bytes) :
    ∃ z, ({ fields := readFields types buffer } : Record).intAt i = .ok z := by
  obtain ⟨slice, hslice⟩ := readFields_getElem? htype buffer
  obtain ⟨h1, h2⟩ := toInt32_bounds (LittleEndian.decode slice)
  refine ⟨toInt32 (LittleEndian.decode slice), ?_⟩
  simp only [Record.intAt, HeapFile.vectorAt, hslice, FieldType.decode, Except.bind,
    stoi_printInt h1 h2]

omit [FloatType] in
/-- A record without fields has no number. -/
theorem intAt_of_fields {record : Record} (hfields : record.fields = []) (i : Nat) :
    ∃ ex, record.intAt i = .error ex := by
  rw [Record.intAt, hfields]
  exact ⟨_, rfl⟩

omit [FloatType] in
/-- `filter` for one column leaves its number in front. -/
theorem intAt_filterFields (record : Record) (i : Nat) :
    ({ record with fields := HeapFile.filterFields [i] record.fields } : Record).intAt 0 =
      record.intAt i := by
  rw [Record.intAt, Record.intAt, HeapFile.filterFields_singleton, HeapFile.vectorAt,
    HeapFile.vectorAt]
  cases record.fields[i]? <;> rfl

/-! ## The loop -/

namespace HeapFile

/-- Enough bytes for all records. -/
theorem readAll_of_le (hle : count * recordSize types ≤ bytes.length) :
    readAll types count (some bytes) = (List.range count).map fun i =>
      (({} : Record).read (some (bytes.drop (i * recordSize types))) types).2 := by
  induction count generalizing bytes with
  | zero => rfl
  | succ count ih =>
    rw [Nat.add_mul, Nat.one_mul] at hle
    have hfirst : ¬ bytes.length < recordSize types := by omega
    have hread : (({} : Record).read (some bytes) types).1 =
        some (bytes.drop (recordSize types)) := by rw [Record.read, if_neg hfirst]
    have hdrop : count * recordSize types ≤ (bytes.drop (recordSize types)).length := by
      rw [List.length_drop]
      omega
    have hrest := ih hdrop
    have hcons : readAll types (count + 1) (some bytes) =
        (({} : Record).read (some bytes) types).2 ::
          readAll types count (({} : Record).read (some bytes) types).1 := rfl
    rw [hcons, hread, hrest, List.range_succ_eq_map, List.map_cons, List.map_map, Nat.zero_mul,
      List.drop_zero]
    congr 1
    refine List.map_congr_left fun i _ => ?_
    rw [List.drop_drop, Function.comp_apply, Nat.succ_mul, Nat.add_comm]

/-- A record that is not there is empty. -/
theorem readAll_of_lt (hlt : bytes.length < count * recordSize types) :
    ∃ record ∈ readAll types count (some bytes), record.fields = [] := by
  induction count generalizing bytes with
  | zero => exact absurd hlt (by simp)
  | succ count ih =>
    have hcons : readAll types (count + 1) (some bytes) =
        (({} : Record).read (some bytes) types).2 ::
          readAll types count (({} : Record).read (some bytes) types).1 := rfl
    rw [hcons]
    by_cases hfirst : bytes.length < recordSize types
    · refine ⟨_, List.mem_cons_self, ?_⟩
      rw [Record.read_of_short hfirst]
    · rw [Nat.add_mul, Nat.one_mul] at hlt
      have hread : (({} : Record).read (some bytes) types).1 =
          some (bytes.drop (recordSize types)) := by rw [Record.read, if_neg hfirst]
      have hdrop : (bytes.drop (recordSize types)).length < count * recordSize types := by
        rw [List.length_drop]
        omega
      obtain ⟨record, hmem, hfields⟩ := ih hdrop
      rw [hread]
      exact ⟨record, List.mem_cons_of_mem _ hmem, hfields⟩

/-- A stream that has failed gives records without fields. -/
theorem readAll_none (hcount : count ≠ 0) :
    ∃ record ∈ readAll types count none, record.fields = [] := by
  cases count with
  | zero => exact absurd rfl hcount
  | succ count => exact ⟨{}, .head _, rfl⟩

/-! ## `load` -/

omit [FloatType] in
/-- All rows can be read: the stream can be opened, and the data file has as many records as
`record_count` says. -/
def Readable (h : HeapFile) : Prop :=
  h.recordCount = 0 ∨ h.leftOpen = none ∧ h.recordCount * h.getRecordSize ≤ h.data.length

/-- The row at a position. -/
def rowAt (h : HeapFile) (i : Nat) : Record := (h.read (h.pos i)).1

/-- A row is what is read at its position of the file. -/
theorem rowAt_of_closed (hclosed : h.leftOpen = none) (i : Nat) :
    h.rowAt i = (({} : Record).read (some (h.data.drop (i * h.getRecordSize))) h.attributeTypes).2 := by
  have hpos : (h.pos i).toNat = i * h.getRecordSize := Int.toNat_natCast _
  have hnonneg : 0 ≤ h.pos i := Int.natCast_nonneg _
  rw [rowAt, read_of_closed hclosed hnonneg, hpos]

/-- `load` gives the row at each position. -/
theorem load_of_readable (hr : h.Readable) : h.load.1 = (List.range h.recordCount).map h.rowAt := by
  rcases hr with hzero | ⟨hclosed, hle⟩
  · have htypes : (h.openStream false).1.recordCount = 0 := by
      rw [openStream]
      split <;> exact hzero
    rw [hzero]
    simp only [load, htypes]
    rfl
  · have hload : h.load.1 = readAll h.attributeTypes h.recordCount (some h.data) := by
      simp only [load, openStream_of_closed h hclosed]
      rfl
    rw [hload, readAll_of_le hle]
    exact List.map_congr_left fun i _ => (rowAt_of_closed hclosed i).symm

/-- Otherwise `load` gives a record without fields. -/
theorem load_of_not_readable (hr : ¬ h.Readable) : ∃ record ∈ h.load.1, record.fields = [] := by
  obtain ⟨hcount, hrest⟩ := not_or.1 hr
  by_cases hclosed : h.leftOpen = none
  · have hload : h.load.1 = readAll h.attributeTypes h.recordCount (some h.data) := by
      simp only [load, openStream_of_closed h hclosed]
      rfl
    rw [hload]
    exact readAll_of_lt (not_le.1 fun hle => hrest ⟨hclosed, hle⟩)
  · have hload : h.load.1 = readAll h.attributeTypes h.recordCount none := by
      simp only [load, openStream_of_open hclosed]
      rfl
    rw [hload]
    exact readAll_none hcount

/-- A row has a field for each column. -/
theorem length_readFields (types : List FieldType) (buffer : Bytes) :
    (readFields types buffer).length = types.length := by
  induction types generalizing buffer with
  | nil => rfl
  | cons type types ih => exact congrArg Nat.succ (ih _)

/-- A read that fails leaves the record without fields. -/
theorem readAll_fields (file : InStream) : ∀ record ∈ readAll types count file,
    record.fields = [] ∨ record.fields.length = types.length := by
  induction count generalizing file with
  | zero => exact nofun
  | succ count ih =>
    intro record hrecord
    rcases List.mem_cons.1 hrecord with rfl | hrecord
    · cases file with
      | none => exact .inl rfl
      | some bytes =>
        simp only
        split_ifs
        · exact .inl rfl
        · exact .inr (length_readFields _ _)
    · exact ih _ record hrecord

/-- Loading does not touch the schema. -/
theorem load_attributes (h : HeapFile) : h.load.2.attributeNames = h.attributeNames ∧
    h.load.2.attributeTypes = h.attributeTypes := by
  simp only [load, openStream]
  split <;> exact ⟨rfl, rfl⟩

/-- `load` of a closed heap changes nothing. -/
theorem load_of_closed (hclosed : h.leftOpen = none) : h.load.2 = h := by
  obtain ⟨names, types, key, count, data, leftOpen⟩ := h
  cases hclosed
  simp [load, openStream, close]

/-- The records that are loaded have a field for each column, unless reading has failed. -/
theorem load_fields : ∀ record ∈ h.load.1,
    record.fields = [] ∨ record.fields.length = h.attributeTypes.length := by
  have htypes : (h.openStream false).1.attributeTypes = h.attributeTypes := by
    rw [openStream]
    split <;> rfl
  intro record hrecord
  simp only [load, htypes] at hrecord
  exact readAll_fields _ record hrecord

/-- An `INT` field of a row that can be read is a number. -/
theorem Readable.intAt (hr : h.Readable) (htype : h.attributeTypes[i]? = some .int) {n : Nat}
    (hn : n < h.recordCount) : ∃ z, (h.rowAt n).intAt i = .ok z := by
  obtain ⟨hclosed, hle⟩ := hr.resolve_left (Nat.ne_zero_of_lt hn)
  have hlen : ¬ (h.data.drop (n * h.getRecordSize)).length < recordSize h.attributeTypes := by
    have hmul := Nat.mul_le_mul_right h.getRecordSize hn
    rw [Nat.succ_mul] at hmul
    rw [List.length_drop]
    show ¬ _ < h.getRecordSize
    omega
  rw [rowAt_of_closed hclosed, Record.read, if_neg hlen]
  exact intAt_readFields htype _

end HeapFile

end DbEngine

end Rdbms
