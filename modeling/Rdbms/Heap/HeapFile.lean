import Rdbms.Heap.Record

/-!
# The heap file

`HeapFile`: the rows of a table in one data file, each at a multiple of the record size. Every
operation opens `m_file_stream` on the data file and closes it at its end. An exception from
`Record::write` leaves the stream open; opening it again then fails, sets its failbit and changes
nothing, and a stream that has failed neither reads nor writes.

The data file is a byte string. What a call has handed to the stream is in the stream's buffer until
the buffer is full or the stream is closed.
-/

namespace Rdbms

namespace DbEngine

/-- `HeapFile`, with the contents of its data file. `leftOpen` is the buffer of `m_file_stream`
while the stream is open. -/
structure HeapFile where
  attributeNames : List Bytes
  attributeTypes : List FieldType
  primaryKey : Bytes
  recordCount : Nat := 0
  data : Bytes := []
  leftOpen : Option Bytes := none

namespace HeapFile

/-- `C_RECORD_SIZE`, which `get_record_size` returns. -/
def getRecordSize (h : HeapFile) : Nat := recordSize h.attributeTypes

/-! ## The stream -/

/-- `m_file_stream.open`, and whether it worked. Opened for output without `in` and `app`, the file
is truncated. -/
def openStream (h : HeapFile) (truncate : Bool) : HeapFile × Bool :=
  match h.leftOpen with
  | none => ({ h with data := if truncate then [] else h.data, leftOpen := some [] }, true)
  | some _ => (h, false)

/-- The bytes that the buffer of a stream has room for. -/
def bufferSize : Nat := 8191

/-- Bytes handed to the stream. When they fill its buffer, they go to the file behind what it holds. -/
def put (h : HeapFile) (good : Bool) (bytes : Bytes) : HeapFile :=
  match good, h.leftOpen with
  | true, some buffer =>
    if buffer.length + bytes.length < bufferSize then
      { h with leftOpen := some (buffer ++ bytes) }
    else { h with data := h.data ++ (buffer ++ bytes), leftOpen := some [] }
  | _, _ => h

/-- `m_file_stream.close`. -/
def close (h : HeapFile) : HeapFile :=
  { h with data := h.data ++ h.leftOpen.getD [], leftOpen := none }

/-- `seekg` from the beginning of a file. -/
def seekg (file : Bytes) (pos : Int) : InStream → InStream
  | none => none
  | some _ => if pos < 0 then none else some (file.drop pos.toNat)

/-- `next_pos`, through a stream of its own. -/
def nextPos (h : HeapFile) : Int := h.data.length

/-! ## Operations -/

variable [FloatType]

/-- `add`. -/
def add (h : HeapFile) (record : Record) : Outcome HeapFile Int :=
  let (h, good) := h.openStream false
  let initialPos := h.nextPos
  match record.write h.attributeTypes with
  | .error e => (.error e, h)
  | .ok buffer =>
    let h := (h.put good buffer).close
    (.ok initialPos, { h with recordCount := h.recordCount + 1 })

/-- The first loop of `bulk_insert`. -/
def writeAll (h : HeapFile) (good : Bool) : List Record → Outcome HeapFile Unit
  | [] => (.ok (), h)
  | record :: records =>
    match record.write h.attributeTypes with
    | .error e => (.error e, h)
    | .ok buffer => (h.put good buffer).writeAll good records

/-- `bulk_insert`. -/
def bulkInsert (h : HeapFile) (records : List Record) : Outcome HeapFile (List Int) :=
  let (h, good) := h.openStream true
  let initialPos := h.nextPos
  match h.writeAll good records with
  | (.error e, h) => (.error e, h)
  | (.ok (), h) =>
    let positions := (List.range records.length).map fun i : Nat =>
      initialPos + i * h.getRecordSize
    let h := h.close
    (.ok positions, { h with recordCount := h.recordCount + records.length })

/-- `read`. -/
def read (h : HeapFile) (pos : Int) : Record × HeapFile :=
  let (h, good) := h.openStream false
  let file := seekg h.data pos (if good then some [] else none)
  let (_, record) := ({} : Record).read file h.attributeTypes
  (record, h.close)

/-- The loop of `load`. -/
def readAll (types : List FieldType) : Nat → InStream → List Record
  | 0, _ => []
  | count + 1, file =>
    let (file, record) := ({} : Record).read file types
    record :: readAll types count file

/-- `load`. -/
def load (h : HeapFile) : List Record × HeapFile :=
  let (h, good) := h.openStream false
  let records := readAll h.attributeTypes h.recordCount (if good then some h.data else none)
  (records, h.close)

/-- `remove`. The stream is open for output only, so no byte can be read through it; a row that is
written goes to `pos`, behind a gap of zeros. -/
def remove (h : HeapFile) (pos : Int) : Outcome HeapFile Bool :=
  let (h, good) := h.openStream true
  let file := seekg [] pos (if good then some [] else none)
  let (file, record) := ({} : Record).read file h.attributeTypes
  let record := { record with status := .deleted }
  match record.write h.attributeTypes with
  | .error e => (.error e, h)
  | .ok buffer =>
    let gap := if buffer = [] then [] else List.replicate pos.toNat 0
    (.ok file.isSome, ((h.put good (gap ++ buffer))).close)

/-! ## The attributes -/

omit [FloatType]

/-- `TableMetadata::get_attribute_idx`. The counter is cast to a `uint8_t`. -/
def getAttributeIdx (h : HeapFile) (attributeName : Bytes) : Except Exn Nat :=
  match h.attributeNames.findIdx? (· = attributeName) with
  | some counter => .ok (counter % 256)
  | none => .error (.runtimeError "Attribute not found")

/-- `std::vector::at`. -/
def vectorAt {α : Type} (v : List α) (i : Nat) : Except Exn α :=
  match v[i]? with
  | some x => .ok x
  | none => .error (.outOfRange "vector::_M_range_check")

/-- `get_type`. -/
def getType (h : HeapFile) (attributeName : Bytes) : Except Exn FieldType := do
  vectorAt h.attributeTypes (← h.getAttributeIdx attributeName)

/-- `get_key_idx`. -/
def getKeyIdx (h : HeapFile) : Except Exn Nat := h.getAttributeIdx h.primaryKey

/-- `get_key`. -/
def getKey (h : HeapFile) (record : Record) : Except Exn (FieldType × Attribute) := do
  let keyIdx ← h.getKeyIdx
  let keyType ← vectorAt h.attributeTypes keyIdx
  let value ← vectorAt record.fields keyIdx
  let name ← vectorAt h.attributeNames keyIdx
  return (keyType, ⟨name, value⟩)

/-- `std::lower_bound`: halve the range of `len` elements from `first` on. -/
def lowerBound (v : List Nat) (i : Nat) : Nat → Nat → Nat → Nat
  | 0, first, _ => first
  | fuel + 1, first, len =>
    if len = 0 then first
    else if v.getD (first + len / 2) 0 < i then
      lowerBound v i fuel (first + len / 2 + 1) (len - len / 2 - 1)
    else lowerBound v i fuel first (len / 2)

/-- `std::binary_search`. -/
def binarySearch (v : List Nat) (i : Nat) : Bool :=
  match v[lowerBound v i v.length 0 v.length]? with
  | some x => !(i < x)
  | none => false

/-- The inner loop of `filter`: from the last field to the first, the ones without an index in
`attributeIdxs` are erased. -/
def filterFields (attributeIdxs : List Nat) (fields : List Bytes) : List Bytes :=
  (List.range fields.length).foldr
    (fun i fields => if binarySearch attributeIdxs i then fields else fields.eraseIdx i) fields

/-- `filter`. It takes the indexes of the selected attributes to be sorted. -/
def filter (h : HeapFile) (records : List Record) (selectedAttributes : List Bytes) :
    Except Exn (List Record) := do
  let attributeIdxs ← selectedAttributes.mapM h.getAttributeIdx
  return records.map fun record =>
    { record with fields := filterFields attributeIdxs record.fields }

end HeapFile

end DbEngine

end Rdbms
