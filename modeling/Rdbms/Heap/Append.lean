import Rdbms.Heap.HeapFile
import Rdbms.Heap.Codec

/-!
# Appending rows

The data file of a heap that rows have been added to is the concatenation of their buffers, all of
the record size. So `add` returns the next multiple of the record size, `read` at such a position
gives the row that was added there in its normal form, and `load`, which reads from the front, gives
all rows in the order in which they came.
-/

namespace Rdbms

namespace DbEngine

section
variable [FloatType] {h : HeapFile} {record : Record} {records : List Record} {buffer : Bytes}
  {types : List FieldType}

/-- What a stored row reads back as. -/
def Record.norm (types : List FieldType) (record : Record) : Record :=
  { fields := rowCodec.normRow types record.fields }

namespace HeapFile

/-- The data file holds these rows, in this order. -/
def Stores (h : HeapFile) (records : List Record) : Prop :=
  ∃ blocks, List.Forall₂ (fun record block => Record.write record h.attributeTypes = .ok block)
    records blocks ∧ h.data = blocks.flatten

/-- The position of a row. -/
def pos (h : HeapFile) (i : Nat) : Int := (i * h.getRecordSize : Nat)

/-- The buffers of rows have the record size. -/
theorem length_of_forall₂ {blocks : List Bytes}
    (hb : List.Forall₂ (fun record block => Record.write record types = .ok block) records blocks) :
    ∀ b ∈ blocks, b.length = recordSize types := by
  intro b hmem
  obtain ⟨i, hi, rfl⟩ := List.getElem_of_mem hmem
  exact Record.length_write (hb.get (hb.length_eq ▸ hi) hi)

/-- The end of the file is the position of the next row. -/
theorem Stores.nextPos (hs : h.Stores records) : h.nextPos = h.pos records.length := by
  obtain ⟨blocks, hb, hdata⟩ := hs
  rw [HeapFile.nextPos, pos, hdata, length_flatten_of_block (length_of_forall₂ hb), hb.length_eq,
    getRecordSize]

/-- A read at the position of a row. -/
theorem Stores.read_drop (hs : h.Stores records) {i : Nat} (hi : i < records.length)
    (rec : Record) : ∃ rest, rec.read (some (h.data.drop (i * h.getRecordSize))) h.attributeTypes =
      (some rest, { rec with fields := (records[i].norm h.attributeTypes).fields }) := by
  obtain ⟨blocks, hb, hdata⟩ := hs
  have hi' : i < blocks.length := hb.length_eq ▸ hi
  refine ⟨(blocks.drop (i + 1)).flatten, ?_⟩
  rw [hdata, getRecordSize, drop_flatten_eq_append (length_of_forall₂ hb) hi']
  exact Record.read_of_write (hb.get hi hi') rec _

/-! ## Opening and closing -/

section
omit [FloatType]

/-- A closed stream can be opened. -/
theorem openStream_of_closed (h : HeapFile) (hclosed : h.leftOpen = none) (truncate : Bool) :
    h.openStream truncate =
      ({ h with data := if truncate then [] else h.data, leftOpen := some [] }, true) := by
  rw [openStream, hclosed]

/-- A stream that is open cannot be opened again. -/
theorem openStream_of_open (hopen : h.leftOpen ≠ none) (truncate : Bool) :
    h.openStream truncate = (h, false) := by
  cases hl : h.leftOpen with
  | none => exact absurd hl hopen
  | some bytes => rw [openStream, hl]

/-- Bytes go to the file or to the buffer. -/
theorem exists_put (h : HeapFile) (good : Bool) (bytes : Bytes) :
    ∃ data leftOpen, h.put good bytes = { h with data, leftOpen } := by
  unfold put
  split
  · split
    · exact ⟨_, _, rfl⟩
    · exact ⟨_, _, rfl⟩
  · exact ⟨_, _, rfl⟩

/-- The bytes are behind those of the stream, in the file or in the buffer. -/
theorem put_of_open {written : Bytes} (hopen : h.leftOpen = some written) (bytes : Bytes) :
    ∃ data written', h.put true bytes = { h with data, leftOpen := some written' } ∧
      data ++ written' = h.data ++ written ++ bytes := by
  simp only [put, hopen]
  split
  · exact ⟨h.data, written ++ bytes, rfl, (List.append_assoc ..).symm⟩
  · refine ⟨h.data ++ (written ++ bytes), [], rfl, ?_⟩
    rw [List.append_nil, List.append_assoc]

/-- When the stream is closed, it does not matter how much its buffer had room for. -/
theorem close_put {written : Bytes} (hopen : h.leftOpen = some written) (bytes : Bytes) :
    (h.put true bytes).close =
      { h with data := h.data ++ written ++ bytes, leftOpen := none } := by
  obtain ⟨data, written', hput, hbytes⟩ := put_of_open hopen bytes
  rw [hput, close, ← hbytes]
  rfl

/-- A row of another heap of the same types is at the same position. -/
theorem pos_of_types {h' : HeapFile} (htypes : h'.attributeTypes = h.attributeTypes) (i : Nat) :
    h'.pos i = h.pos i := by
  rw [pos, pos, getRecordSize, getRecordSize, htypes]

end

/-! ## Operations on a closed stream -/

/-- A row that is added is behind the file. -/
theorem add_of_closed (hclosed : h.leftOpen = none)
    (hwrite : record.write h.attributeTypes = .ok buffer) :
    h.add record = (.ok h.nextPos,
      { h with data := h.data ++ buffer, recordCount := h.recordCount + 1 }) := by
  have hput := close_put (h := { h with leftOpen := some [] }) rfl buffer
  rw [List.append_nil] at hput
  simp only [add, openStream_of_closed h hclosed, Bool.false_eq_true, if_false, hwrite, hput]
  rw [← hclosed]
  rfl

/-- What is read is what is at the position. -/
theorem read_of_closed (hclosed : h.leftOpen = none) {pos : Int} (hpos : 0 ≤ pos) :
    h.read pos =
      ((({} : Record).read (some (h.data.drop pos.toNat)) h.attributeTypes).2, h) := by
  obtain ⟨names, types, key, count, data, leftOpen⟩ := h
  cases hclosed
  simp [HeapFile.read, openStream, seekg, close, not_lt.2 hpos]

/-- `read` at the position of a row. -/
theorem Stores.read (hs : h.Stores records) (hclosed : h.leftOpen = none) {i : Nat}
    (hi : i < records.length) : h.read (h.pos i) = (records[i].norm h.attributeTypes, h) := by
  obtain ⟨rest, hread⟩ := hs.read_drop hi {}
  have hpos : (h.pos i).toNat = i * h.getRecordSize := Int.toNat_natCast _
  have hnonneg : 0 ≤ h.pos i := Int.natCast_nonneg _
  rw [read_of_closed hclosed hnonneg, hpos, hread]
  rfl

/-- `add` behind the rows. -/
theorem Stores.add (hs : h.Stores records) (hclosed : h.leftOpen = none)
    (hwrite : record.write h.attributeTypes = .ok buffer) :
    h.add record = (.ok (h.pos records.length),
      { h with data := h.data ++ buffer, recordCount := h.recordCount + 1 }) := by
  rw [add_of_closed hclosed hwrite, hs.nextPos]

/-- One more row behind the others. -/
theorem Stores.append (hs : h.Stores records)
    (hwrite : record.write h.attributeTypes = .ok buffer) (recordCount : Nat) :
    ({ h with data := h.data ++ buffer, recordCount } : HeapFile).Stores (records ++ [record]) := by
  obtain ⟨blocks, hb, hdata⟩ := hs
  refine ⟨blocks ++ [buffer], List.rel_append hb (.cons hwrite .nil), ?_⟩
  show h.data ++ buffer = _
  rw [List.flatten_append, ← hdata, List.flatten_singleton]

/-- The loop of `load` through the rows. -/
theorem readAll_of_forall₂ {blocks : List Bytes}
    (hb : List.Forall₂ (fun record block => Record.write record types = .ok block) records blocks) :
    readAll types records.length (some blocks.flatten) = records.map (·.norm types) := by
  induction hb with
  | nil => rfl
  | @cons record block records blocks hwrite _ ih =>
    rw [List.length_cons, readAll, List.flatten_cons, Record.read_of_write hwrite]
    simp only [ih]
    rfl

/-- `load` gives all rows. -/
theorem Stores.load (hs : h.Stores records) (hclosed : h.leftOpen = none)
    (hcount : h.recordCount = records.length) :
    h.load = (records.map (·.norm h.attributeTypes), h) := by
  obtain ⟨blocks, hb, hdata⟩ := hs
  have hall := readAll_of_forall₂ hb
  obtain ⟨names, types, key, count, data, leftOpen⟩ := h
  cases hclosed
  cases hcount
  cases hdata
  simp [HeapFile.load, openStream, close, hall]

/-! ## Runs of `add` -/

omit [FloatType] in
/-- `HeapFile::HeapFile` on a new directory. -/
def create (attributeNames : List Bytes) (attributeTypes : List FieldType) (primaryKey : Bytes) :
    HeapFile := { attributeNames, attributeTypes, primaryKey }

/-- Rows added one after the other, and what each call returned. -/
def addAll (h : HeapFile) : List Record → List (Except Exn Int) × HeapFile
  | [] => ([], h)
  | record :: records =>
    let (res, h) := h.add record
    let (results, h) := h.addAll records
    (res :: results, h)

/-- A run of `add` calls whose rows can all be written. -/
theorem Stores.addAll (hs : h.Stores records) (hclosed : h.leftOpen = none)
    (hcount : h.recordCount = records.length) {more : List Record}
    (hmore : ∀ record ∈ more, ∃ buffer, record.write h.attributeTypes = .ok buffer) :
    (h.addAll more).1 = (List.range' records.length more.length).map (fun i => .ok (h.pos i)) ∧
      (h.addAll more).2.Stores (records ++ more) ∧ (h.addAll more).2.leftOpen = none ∧
      (h.addAll more).2.recordCount = (records ++ more).length ∧
      (h.addAll more).2.attributeTypes = h.attributeTypes := by
  induction more generalizing h records with
  | nil =>
    rw [List.append_nil]
    exact ⟨rfl, hs, hclosed, hcount, rfl⟩
  | cons record more ih =>
    obtain ⟨buffer, hwrite⟩ := hmore record (.head more)
    obtain ⟨h1, h2, h3, h4, h5⟩ := ih (hs.append hwrite (h.recordCount + 1)) hclosed
      (by rw [List.length_append]; exact congrArg (· + 1) hcount)
      fun r hr => hmore r (.tail record hr)
    have hadd := hs.add hclosed hwrite
    simp only [HeapFile.addAll, hadd]
    rw [List.append_assoc, List.singleton_append] at h2 h4
    refine ⟨?_, h2, h3, h4, h5⟩
    rw [h1, List.length_cons, List.range'_succ, List.map_cons, List.length_append,
      List.length_singleton]
    rfl

end HeapFile

/-! ## The row codec and the heap -/

/-- A row has a string for each column, and `std::stoi` takes those of the `INT` columns. -/
def Castable (types : List FieldType) (row : List Bytes) : Prop :=
  types.length ≤ row.length ∧
    ∀ p ∈ types.zip row, p.1 = .int → (stoi p.2).isOk

/-- Every column that is not a `FLOAT` takes a castable field. -/
theorem Castable.accepts {row : List Bytes} (hrow : Castable types row)
    (hfloat : .float ∉ types) : rowCodec.Accepts types row := by
  obtain ⟨hlen, hcast⟩ := hrow
  induction types generalizing row with
  | nil => exact .nil
  | cons type types ih =>
    cases row with
    | nil => exact absurd hlen (Nat.not_succ_le_zero _)
    | cons field row =>
      refine .cons ?_ (ih (fun hmem => hfloat (.tail type hmem)) (Nat.le_of_succ_le_succ hlen)
        fun p hp => hcast p (.tail (type, field) hp))
      cases type with
      | bool => exact ⟨_, rfl⟩
      | int =>
        have hok : (stoi field).isOk := hcast (.int, field) (.head _) rfl
        cases hz : stoi field with
        | ok z => exact ⟨_, congrArg (Except.map _) hz⟩
        | error e =>
          rw [hz] at hok
          cases hok
      | float => exact absurd (.head types) hfloat
      | varchar size => exact ⟨_, rfl⟩

/-- A castable row of a table that is not too wide can be written. -/
theorem Castable.write {row : List Bytes} (hrow : Castable types row) (hfloat : .float ∉ types)
    (hsize : (types.map FieldType.size).sum ≤ 255) :
    ∃ buffer, ({ fields := row } : Record).write types = .ok buffer := by
  obtain ⟨buffer, henc⟩ := (hrow.accepts hfloat).encodes
  exact ⟨buffer, Record.write_eq_ok.2 ⟨henc, Nat.lt_succ_of_le hsize⟩⟩

/-- The row codec and the append-only heap agree. -/
theorem codec_agrees_with_heap (types : List FieldType) (hfloat : .float ∉ types)
    (hsize : (types.map FieldType.size).sum ≤ 255) :
    (∀ row, List.zipWith FieldType.norm types (List.zipWith FieldType.norm types row) =
      List.zipWith FieldType.norm types row) ∧
    (∀ row, Castable types row → ∃ buffer, ({ fields := row } : Record).write types = .ok buffer ∧
      ∀ rest, ({} : Record).read (some (buffer ++ rest)) types =
        (some rest, { fields := List.zipWith FieldType.norm types row })) ∧
    (∀ names key (rows : List (List Bytes)), (∀ row ∈ rows, Castable types row) →
      let run := (HeapFile.create names types key).addAll (rows.map fun row => { fields := row })
      run.1 = (List.range rows.length).map (fun i : Nat => .ok (i * recordSize types : Nat)) ∧
      (∀ i (hi : i < rows.length), run.2.read (i * recordSize types : Nat) =
        ({ fields := List.zipWith FieldType.norm types rows[i] }, run.2)) ∧
      run.2.load = (rows.map fun row => { fields := List.zipWith FieldType.norm types row },
        run.2)) := by
  refine ⟨fun row => ?_, fun row hrow => ?_, fun names key rows hrows => ?_⟩
  · exact FieldCodec.normRow_normRow (C := rowCodec) (fun type htype field =>
      FieldType.norm_norm (fun hf => hfloat (hf ▸ htype)) field) row
  · obtain ⟨buffer, hwrite⟩ := hrow.write hfloat hsize
    exact ⟨buffer, hwrite, fun rest => Record.read_of_write hwrite {} rest⟩
  · have hempty : (HeapFile.create names types key).Stores [] := ⟨[], .nil, rfl⟩
    have hwrite : ∀ record ∈ rows.map (fun row => ({ fields := row } : Record)),
        ∃ buffer, record.write types = .ok buffer := by
      intro record hmem
      obtain ⟨row, hrow, rfl⟩ := List.mem_map.1 hmem
      exact (hrows row hrow).write hfloat hsize
    obtain ⟨h1, h2, h3, h4, h5⟩ := hempty.addAll rfl rfl hwrite
    rw [List.nil_append] at h2 h4
    intro run
    have htypes : run.2.attributeTypes = types := h5
    refine ⟨?_, fun i hi => ?_, ?_⟩
    · rw [List.range_eq_range']
      rw [List.length_map] at h1
      exact h1
    · have hread := h2.read h3 (i := i) (by rw [List.length_map]; exact hi)
      rw [HeapFile.pos_of_types h5, List.getElem_map, h5] at hread
      exact hread
    · have hload := h2.load h3 h4
      rw [h5, List.map_map] at hload
      exact hload

end

attribute [local instance] noFloats in
/-- Two rows of an `INT`, a `BOOL` and a `VARCHAR(3)`, of 8 bytes each, are added, read at their
positions and loaded in order. -/
theorem codec_agrees_with_heap_sample :
    let types := [.int, .bool, .varchar 3]
    let rows := [[ascii " +07x", ascii "si", ascii "abcd"], [ascii "-5", ascii "", ascii "z"]]
    let run := (HeapFile.create [] types []).addAll (rows.map fun row => { fields := row })
    let first : Record := { fields := [ascii "7", ascii "true", ascii "abc"] }
    let second : Record := { fields := [ascii "-5", ascii "false", ascii "z  "] }
    run.1 = [.ok 0, .ok 8] ∧ run.2.read 0 = (first, run.2) ∧ run.2.read 8 = (second, run.2) ∧
      run.2.load = ([first, second], run.2) := by
  intro types rows run first second
  have hrows : ∀ row ∈ rows, Castable types row :=
    List.forall_mem_cons.2 ⟨⟨le_rfl, by decide⟩, List.forall_mem_singleton.2 ⟨le_rfl, by decide⟩⟩
  have hall := (codec_agrees_with_heap types (by decide) (by decide)).2.2 [] [] rows hrows
  exact ⟨hall.1, hall.2.1 0 (by decide), hall.2.1 1 (by decide), hall.2.2⟩

end DbEngine

end Rdbms
