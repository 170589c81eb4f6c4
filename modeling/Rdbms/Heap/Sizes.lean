import Rdbms.Heap.HeapFile
import Rdbms.Heap.Codec

/-!
# The sizes of a row

The sizes of the columns are added up in a `uint8_t`: in the constructor of `HeapFile`, and again in
`Record::write` and in `Record::read` for their `tmp_buffer`. The position of a field in the buffer
is not. `writeCall` and `readCall` are the two functions with their copies between the fields and the
buffer. When the sizes add up to more than 255, `Record::write` throws at the first field that does
not fit (`write_overflow_iff`), and `Record::read`, which does not check, copies from behind the
buffer (`readLoop_within_iff`).
-/

namespace Rdbms

namespace DbEngine

/-- A `memcpy` of `size` bytes at the position `pos` of `tmp_buffer`. -/
structure Copy where
  pos : Nat
  size : Nat
deriving DecidableEq

/-- The copy ends in a buffer of `bufferSize` bytes. -/
def Copy.Within (bufferSize : Nat) (c : Copy) : Prop := c.pos + c.size ≤ bufferSize

/-- A call of `Record::write` or of `Record::read`. -/
structure Call (α : Type) where
  bufferSize : Nat
  copies : List Copy
  result : α

variable [FloatType] {types : List FieldType} {fields : List Bytes} {bufferSize pos : Nat}
  {record : Record}

/-- `writeFields` with its copies. -/
def writeLoop (bufferSize : Nat) :
    Nat → List FieldType → List Bytes → List Copy × Except Exn Bytes
  | _, [], _ => ([], .ok [])
  | pos, type :: types, fields =>
    if bufferSize < pos + type.size then ([], .error (.runtimeError "Buffer overflow detected"))
    else match fields with
      | [] => ([], .error (.outOfRange "vector::_M_range_check"))
      | field :: fields => match type.encode field with
        | .error e => ([], .error e)
        | .ok bytes =>
          let (copies, rest) := writeLoop bufferSize (pos + type.size) types fields
          (⟨pos, type.size⟩ :: copies, rest.map (bytes ++ ·))

/-- `Record::write`. -/
def Record.writeCall (record : Record) (types : List FieldType) : Call (Except Exn Bytes) :=
  let bufferSize := recordSize types
  let (copies, result) := writeLoop bufferSize 0 types record.fields
  { bufferSize, copies, result }

/-- `readFields` with its copies. -/
def readLoop (buffer : Bytes) : Nat → List FieldType → List Copy × List Bytes
  | _, [] => ([], [])
  | pos, type :: types =>
    let (copies, fields) := readLoop buffer (pos + type.size) types
    (⟨pos, type.size⟩ :: copies, type.decode ((buffer.drop pos).take type.size) :: fields)

/-- `Record::read`. -/
def Record.readCall (record : Record) (file : InStream) (types : List FieldType) :
    Call (InStream × Record) :=
  let bufferSize := recordSize types
  match file with
  | none => { bufferSize, copies := [], result := (none, record) }
  | some bytes =>
    if bytes.length < bufferSize then { bufferSize, copies := [], result := (none, record) }
    else
      let (copies, fields) := readLoop (bytes.take bufferSize) 0 types
      { bufferSize, copies, result := (some (bytes.drop bufferSize), { record with fields }) }

/-! ## The functions without their copies -/

/-- What the loop of `write` makes. -/
theorem writeLoop_snd (bufferSize pos : Nat) (types : List FieldType) (fields : List Bytes) :
    (writeLoop bufferSize pos types fields).2 = writeFields bufferSize pos types fields := by
  induction types generalizing pos fields with
  | nil => rfl
  | cons type types ih =>
    unfold writeLoop writeFields
    split_ifs with hover
    · rfl
    · cases fields with
      | nil => rfl
      | cons field fields =>
        have hrest := ih (pos + type.size) fields
        cases hb : type.encode field with
        | error e =>
          simp only [hb]
          rfl
        | ok bytes =>
          simp only [hb, hrest]
          cases writeFields bufferSize (pos + type.size) types fields <;> rfl

/-- The result of `write`. -/
theorem Record.writeCall_result (record : Record) (types : List FieldType) :
    (record.writeCall types).result = record.write types := writeLoop_snd _ _ _ _

/-- What the loop of `read` gives. -/
theorem readLoop_snd (buffer : Bytes) (pos : Nat) (types : List FieldType) :
    (readLoop buffer pos types).2 = readFields types (buffer.drop pos) := by
  induction types generalizing pos with
  | nil => rfl
  | cons type types ih =>
    rw [readLoop, readFields, List.drop_drop]
    simp only [ih]

/-- The result of `read`. -/
theorem Record.readCall_result (record : Record) (file : InStream) (types : List FieldType) :
    (record.readCall file types).result = record.read file types := by
  cases file with
  | none => rfl
  | some bytes =>
    rw [readCall, Record.read]
    split_ifs with hshort
    · rfl
    · simp only [readLoop_snd, List.drop_zero]

/-- `read` has a buffer of the record size. -/
theorem Record.readCall_bufferSize (record : Record) (file : InStream) (types : List FieldType) :
    (record.readCall file types).bufferSize = recordSize types := by
  cases file with
  | none => rfl
  | some bytes =>
    rw [readCall]
    split_ifs <;> rfl

/-! ## Where they copy -/

/-- The write loop checks its copies. -/
theorem writeLoop_within (bufferSize pos : Nat) (types : List FieldType) (fields : List Bytes) :
    ∀ c ∈ (writeLoop bufferSize pos types fields).1, c.Within bufferSize := by
  induction types generalizing pos fields with
  | nil => nofun
  | cons type types ih =>
    unfold writeLoop
    split_ifs with hover
    · nofun
    · cases fields with
      | nil => nofun
      | cons field fields =>
        cases hb : type.encode field with
        | error e =>
          simp only [hb]
          nofun
        | ok bytes =>
          simp only [hb]
          exact List.forall_mem_cons.2 ⟨not_lt.1 hover, ih (pos + type.size) fields⟩

/-- The read loop stays in the buffer exactly when the sizes do. -/
theorem readLoop_within_iff (buffer : Bytes) (hpos : pos ≤ bufferSize) :
    (∀ c ∈ (readLoop buffer pos types).1, c.Within bufferSize) ↔
      pos + rowCodec.rowWidth types ≤ bufferSize := by
  induction types generalizing pos with
  | nil => exact ⟨fun _ => hpos, fun _ => nofun⟩
  | cons type types ih =>
    have hwidth : rowCodec.rowWidth (type :: types) = type.size + rowCodec.rowWidth types := rfl
    have hcopies : (readLoop buffer pos (type :: types)).1 =
        ⟨pos, type.size⟩ :: (readLoop buffer (pos + type.size) types).1 := rfl
    rw [hcopies, List.forall_mem_cons]
    constructor
    · rintro ⟨hfirst, hrest⟩
      have hfirst : pos + type.size ≤ bufferSize := hfirst
      have hrest := (ih hfirst).1 hrest
      omega
    · intro hfit
      have hfirst : pos + type.size ≤ bufferSize := by omega
      exact ⟨hfirst, (ih hfirst).2 (by omega)⟩

/-- The accumulated size is the exact one when a `uint8_t` holds that. -/
theorem recordSize_eq_iff (types : List FieldType) :
    recordSize types = rowCodec.rowWidth types ↔ rowCodec.rowWidth types ≤ 255 := by
  rw [recordSize_eq]
  omega

/-- The write loop comes to a field that does not fit. -/
theorem writeFields_overflow (h : rowCodec.Accepts types fields) (hpos : pos ≤ bufferSize)
    (hover : bufferSize < pos + rowCodec.rowWidth types) :
    writeFields bufferSize pos types fields =
      .error (.runtimeError "Buffer overflow detected") := by
  induction h generalizing pos with
  | nil => exact absurd hover (not_lt.2 hpos)
  | @cons type field types fields hb _ ih =>
    have hwidth : rowCodec.rowWidth (type :: types) = type.size + rowCodec.rowWidth types := rfl
    obtain ⟨b, hb⟩ := hb
    have hb : type.encode field = .ok b := hb
    unfold writeFields
    split_ifs with hfirst
    · rfl
    · have hrest : writeFields bufferSize (pos + type.size) types fields =
          .error (.runtimeError "Buffer overflow detected") := ih (by omega) (by omega)
      simp only [hb, hrest]
      rfl

/-- `Record::write` refuses the rows whose columns are too wide, and no other row that casts. -/
theorem Record.write_overflow_iff (h : rowCodec.Accepts types record.fields) :
    record.write types = .error (.runtimeError "Buffer overflow detected") ↔
      255 < rowCodec.rowWidth types := by
  have hsize := recordSize_eq types
  constructor
  · intro hover
    by_contra hfit
    obtain ⟨bytes, henc⟩ := h.encodes
    rw [Record.write_eq_ok.2 ⟨henc, by omega⟩] at hover
    cases hover
  · intro hwide
    exact writeFields_overflow h (Nat.zero_le _) (by omega)

/-- `Record::read` of enough bytes stays in its buffer unless the columns are too wide. -/
theorem Record.readCall_within_iff (record : Record) {bytes : Bytes}
    (h : recordSize types ≤ bytes.length) :
    (∀ c ∈ (record.readCall (some bytes) types).copies, c.Within (recordSize types)) ↔
      rowCodec.rowWidth types ≤ 255 := by
  have hcopies : (record.readCall (some bytes) types).copies =
      (readLoop (bytes.take (recordSize types)) 0 types).1 := by
    rw [readCall, if_neg (not_lt.2 h)]
  rw [hcopies, readLoop_within_iff _ (Nat.zero_le _), Nat.zero_add, recordSize_eq]
  omega

/-! ## A table -/

namespace HeapFile

/-- The size that a table keeps and those of the two buffers are the exact sum of the columns' sizes,
no row that casts overflows, and no copy leaves its buffer. -/
structure SizesExact (h : HeapFile) : Prop where
  getRecordSize : h.getRecordSize = (h.attributeTypes.map FieldType.size).sum
  writeBuffer : ∀ record : Record,
    (record.writeCall h.attributeTypes).bufferSize = (h.attributeTypes.map FieldType.size).sum
  readBuffer : ∀ (record : Record) (file : InStream),
    (record.readCall file h.attributeTypes).bufferSize = (h.attributeTypes.map FieldType.size).sum
  noOverflow : ∀ record : Record, rowCodec.Accepts h.attributeTypes record.fields →
    (record.writeCall h.attributeTypes).result ≠ .error (.runtimeError "Buffer overflow detected")
  writeCopies : ∀ record : Record,
    let call := record.writeCall h.attributeTypes
    ∀ c ∈ call.copies, c.Within call.bufferSize
  readCopies : ∀ (record : Record) (file : InStream),
    let call := record.readCall file h.attributeTypes
    ∀ c ∈ call.copies, c.Within call.bufferSize

/-- The sizes are exact when a row has 255 bytes at most. -/
theorem sizesExact_iff (h : HeapFile) :
    h.SizesExact ↔ (h.attributeTypes.map FieldType.size).sum ≤ 255 := by
  have hiff := recordSize_eq_iff h.attributeTypes
  constructor
  · exact fun hexact => hiff.1 hexact.getRecordSize
  · intro hfit
    have hsize : recordSize h.attributeTypes = (h.attributeTypes.map FieldType.size).sum := hiff.2 hfit
    refine ⟨hsize, fun _ => hsize, fun record file => ?_, fun record hrow hover => ?_,
      fun record => writeLoop_within _ 0 h.attributeTypes record.fields, fun record file => ?_⟩
    · rw [Record.readCall_bufferSize, hsize]
    · rw [Record.writeCall_result, Record.write_overflow_iff hrow] at hover
      exact not_lt.2 hfit hover
    · intro call
      have hbuffer : call.bufferSize = recordSize h.attributeTypes :=
        Record.readCall_bufferSize record file h.attributeTypes
      rw [hbuffer]
      cases file with
      | none => nofun
      | some bytes =>
        by_cases hshort : bytes.length < recordSize h.attributeTypes
        · have hnone : call.copies = [] := by
            show (record.readCall (some bytes) h.attributeTypes).copies = []
            rw [Record.readCall, if_pos hshort]
          rw [hnone]
          nofun
        · exact (record.readCall_within_iff (not_lt.1 hshort)).2 hfit

end HeapFile

end DbEngine

end Rdbms
