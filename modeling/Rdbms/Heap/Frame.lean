import Rdbms.Heap.Append

/-!
# What a call does to the rows that are there

A call on a heap that rows have been added to. `add` on a closed stream leaves the rows where they
are. `bulk_insert` and `remove` open the data file with `out` alone, so they truncate it; `remove`
then reads nothing back, and `Record::write` throws at the first field. After a call that threw, the
stream is open and the next `read` gives an empty record.
-/

namespace Rdbms

namespace DbEngine

section
variable [FloatType] {h h' : HeapFile} {record : Record} {records : List Record} {buffer : Bytes}
  {types : List FieldType}

/-- `Record::write` does not throw. -/
def Record.Writable (types : List FieldType) (record : Record) : Prop :=
  ∃ buffer, record.write types = .ok buffer

namespace Record

/-- A row of a table without columns is written as nothing. -/
theorem writable_nil (record : Record) : record.Writable [] := ⟨[], rfl⟩

/-- `Record::write` throws for a row that cannot be written. -/
theorem exists_error (hw : ¬ record.Writable types) : ∃ e, record.write types = .error e := by
  cases hwrite : record.write types with
  | ok buffer => exact absurd ⟨buffer, hwrite⟩ hw
  | error e => exact ⟨e, rfl⟩

/-- A row without fields cannot be written to a table with columns. -/
theorem not_writable_of_fields (htypes : types ≠ []) (hfields : record.fields = []) :
    ¬ record.Writable types := by
  rintro ⟨buffer, hwrite⟩
  have henc := (write_eq_ok.1 hwrite).1
  rw [hfields] at henc
  cases henc
  exact htypes rfl

/-- What a stored row reads back as is not the record that a failed read leaves. -/
theorem norm_ne_default (hw : record.Writable types) (htypes : types ≠ []) :
    record.norm types ≠ {} := by
  obtain ⟨buffer, hwrite⟩ := hw
  have hrow := (write_eq_ok.1 hwrite).1.decodeRow []
  intro hnorm
  have hfields : rowCodec.normRow types record.fields = [] := congrArg Record.fields hnorm
  have hlen := FieldCodec.length_decodeRow (C := rowCodec) types (buffer ++ [])
  rw [hrow, hfields] at hlen
  exact htypes (List.length_eq_zero_iff.1 hlen.symm)

/-- A record of no bytes is read anywhere. -/
theorem read_of_size_zero (hsize : recordSize types = 0) (hw : record.Writable types)
    (bytes : Bytes) : ({} : Record).read (some bytes) types = (some bytes, record.norm types) := by
  obtain ⟨buffer, hwrite⟩ := hw
  have hnil : buffer = [] := List.length_eq_zero_iff.1 ((length_write hwrite).trans hsize)
  subst hnil
  exact read_of_write hwrite {} bytes

/-- A record of no bytes that has been read can be written again. -/
theorem writable_norm (hsize : recordSize types = 0) (hw : record.Writable types) :
    (record.norm types).Writable types := by
  obtain ⟨buffer, hwrite⟩ := hw
  obtain ⟨henc, hfit⟩ := write_eq_ok.1 hwrite
  rw [recordSize_of_lt hfit] at hsize
  have henc' : ∀ {types : List FieldType} {fields : List Bytes} {buffer : Bytes},
      rowCodec.rowWidth types = 0 → rowCodec.Encodes types fields buffer →
      ∃ buffer', rowCodec.Encodes types (rowCodec.normRow types fields) buffer' := by
    intro types fields buffer hwidth henc
    induction henc with
    | nil => exact ⟨[], .nil⟩
    | @cons type field types fields b bytes hb _ ih =>
      rw [FieldCodec.rowWidth_cons] at hwidth
      obtain ⟨buffer', hrest⟩ := ih (by omega)
      have hzero : type.size = 0 := Nat.eq_zero_of_add_eq_zero_right hwidth
      cases type with
      | bool => cases hzero
      | int => cases hzero
      | float => cases hzero
      | varchar size => exact ⟨_, .cons rfl hrest⟩
  obtain ⟨buffer', henc'⟩ := henc' hsize henc
  exact ⟨buffer', write_eq_ok.2 ⟨henc', hfit⟩⟩

end Record

namespace HeapFile

/-! ## Runs of `add` -/

/-- The row that `add` stores, with its position: a stream that is open already writes nothing. -/
def stored (h : HeapFile) (record : Record) : List (Int × Record) :=
  match (h.add record).1, h.leftOpen with
  | .ok pos, none => [(pos, record)]
  | _, _ => []

/-- A run of `add` calls on a new heap file, with the rows that were stored and the positions they
were given. Calls may throw. -/
inductive AddRun : HeapFile → List (Int × Record) → Prop
  | create (names : List Bytes) (types : List FieldType) (key : Bytes) :
      AddRun (create names types key) []
  | add {h : HeapFile} {log : List (Int × Record)} (record : Record) : AddRun h log →
      AddRun (h.add record).2 (log ++ h.stored record)

/-- What holds after a run of `add` calls. -/
structure Logged (h : HeapFile) (log : List (Int × Record)) : Prop where
  stores : h.Stores (log.map (·.2))
  pos : ∀ i (hi : i < log.length), log[i].1 = h.pos i
  leftOpen : h.leftOpen = none ∨
    h.leftOpen = some [] ∧ ∃ record : Record, ¬ record.Writable h.attributeTypes

/-- The rows of the log could be written. -/
theorem Logged.writable {log : List (Int × Record)} (hl : h.Logged log) :
    ∀ p ∈ log, p.2.Writable h.attributeTypes := by
  intro p hp
  obtain ⟨blocks, hb, -⟩ := hl.stores
  obtain ⟨i, hi, rfl⟩ := List.getElem_of_mem hp
  have hi' : i < (log.map (·.2)).length := by rwa [List.length_map]
  have hwrite := hb.get hi' (hb.length_eq ▸ hi')
  rw [List.get_eq_getElem, List.getElem_map] at hwrite
  exact ⟨_, hwrite⟩

/-- A table with a stream left open has columns. -/
theorem Logged.types_ne_nil {log : List (Int × Record)} (hl : h.Logged log)
    (hopen : h.leftOpen ≠ none) : h.attributeTypes ≠ [] := by
  obtain ⟨-, record, hw⟩ := hl.leftOpen.resolve_left hopen
  intro hnil
  rw [hnil] at hw
  exact hw record.writable_nil

/-! ## One call -/

/-- A row that cannot be written leaves the stream open. -/
theorem add_error {e : Exn} (he : record.write h.attributeTypes = .error e) :
    h.add record = (.error e, (h.openStream false).1) := by
  cases hl : h.leftOpen with
  | none => simp [HeapFile.add, openStream, hl, he]
  | some bytes => simp [HeapFile.add, openStream, hl, he]

/-- Through a stream that is open already, `add` writes nothing. -/
theorem add_of_open (hopen : h.leftOpen = some []) (hwrite : record.write h.attributeTypes = .ok buffer) :
    h.add record =
      (.ok h.nextPos, { h with leftOpen := none, recordCount := h.recordCount + 1 }) := by
  obtain ⟨names, types, key, count, data, leftOpen⟩ := h
  cases hopen
  simp [HeapFile.add, openStream, hwrite, put, close, HeapFile.nextPos]

/-- A stream that is open already gives an empty record. -/
theorem read_of_open (hopen : h.leftOpen ≠ none) (pos : Int) : (h.read pos).1 = {} := by
  simp only [HeapFile.read, openStream_of_open hopen]
  rfl

/-- One more call. -/
theorem Logged.add {log : List (Int × Record)} (hl : h.Logged log) (record : Record) :
    (h.add record).2.Logged (log ++ h.stored record) := by
  by_cases hw : record.Writable h.attributeTypes
  · obtain ⟨buffer, hwrite⟩ := hw
    rcases hl.leftOpen with hclosed | ⟨hopen, hunwritable⟩
    · have hadd := hl.stores.add hclosed hwrite
      rw [List.length_map] at hadd
      have hstored : h.stored record = [(h.pos log.length, record)] := by
        simp only [stored, hadd, hclosed]
      rw [hstored, hadd]
      refine ⟨?_, fun i hi => ?_, .inl hclosed⟩
      · rw [List.map_append]
        exact hl.stores.append hwrite _
      · rw [List.length_append, List.length_singleton] at hi
        rcases Nat.lt_succ_iff_lt_or_eq.1 hi with hlt | rfl
        · rw [List.getElem_append_left hlt]
          exact hl.pos i hlt
        · rw [List.getElem_concat_length rfl]
          rfl
    · have hstored : h.stored record = [] := by
        simp only [stored, add_of_open hopen hwrite, hopen]
      rw [hstored, List.append_nil, add_of_open hopen hwrite]
      exact ⟨hl.stores, hl.pos, .inl rfl⟩
  · obtain ⟨e, he⟩ := Record.exists_error hw
    have hstored : h.stored record = [] := by simp only [stored, add_error he]
    rw [hstored, List.append_nil, add_error he]
    rcases hl.leftOpen with hclosed | ⟨hopen, hunwritable⟩
    · rw [openStream_of_closed h hclosed]
      exact ⟨hl.stores, hl.pos, .inr ⟨rfl, record, hw⟩⟩
    · rw [openStream_of_open (by rw [hopen]; exact Option.some_ne_none _)]
      exact hl

/-- A run of `add` calls logs its rows. -/
theorem AddRun.logged {log : List (Int × Record)} (hrun : AddRun h log) : h.Logged log := by
  induction hrun with
  | create names types key => exact ⟨⟨[], .nil, rfl⟩, nofun, .inl rfl⟩
  | add record _ ih => exact ih.add record

/-! ## What is kept -/

/-- Every row is still what `read` returns at its position. -/
def Kept (types : List FieldType) (h : HeapFile) (rows : List (Int × Record)) : Prop :=
  ∀ p ∈ rows, (h.read p.1).1 = p.2.norm types

variable {rows log : List (Int × Record)}

/-- A stream that is left open hides every row. -/
theorem kept_of_open (hopen : h'.leftOpen ≠ none) (htypes : types ≠ [])
    (hw : ∀ p ∈ rows, p.2.Writable types) : Kept types h' rows ↔ rows = [] := by
  constructor
  · intro hk
    rcases rows with _ | ⟨p, rows⟩
    · rfl
    · have hread := hk p (.head rows)
      rw [read_of_open hopen] at hread
      exact absurd hread.symm (Record.norm_ne_default (hw p (.head rows)) htypes)
  · rintro rfl p hp
    exact nomatch hp

/-- Rows of no bytes are read at any position. -/
theorem kept_of_size_zero (hclosed : h'.leftOpen = none) (htypes : h'.attributeTypes = types)
    (hsize : recordSize types = 0) (hw : ∀ p ∈ rows, p.2.Writable types)
    (hpos : ∀ p ∈ rows, 0 ≤ p.1) : Kept types h' rows := by
  intro p hp
  rw [read_of_closed hclosed (hpos p hp), htypes, Record.read_of_size_zero hsize (hw p hp)]

/-- Behind the last row nothing is read. -/
theorem read_of_length_le (hclosed : h'.leftOpen = none) (hsize : recordSize h'.attributeTypes ≠ 0)
    {pos : Int} (hpos : h'.data.length ≤ pos) : (h'.read pos).1 = {} := by
  have hdrop : h'.data.drop pos.toNat = [] := List.drop_eq_nil_iff.2 (by omega)
  have hshort : ([] : Bytes).length < recordSize h'.attributeTypes := Nat.pos_of_ne_zero hsize
  rw [read_of_closed hclosed (by omega), hdrop, Record.read_of_short hshort]

omit [FloatType] in
/-- A table whose records have bytes has columns. -/
theorem types_ne_nil_of_size (hsize : recordSize types ≠ 0) : types ≠ [] := by
  rintro rfl
  exact hsize rfl

/-- On a closed stream every row is read back. -/
theorem Logged.kept (hl : h.Logged log) (hclosed : h.leftOpen = none) :
    Kept h.attributeTypes h log := by
  intro p hp
  obtain ⟨i, hi, rfl⟩ := List.getElem_of_mem hp
  have hread := hl.stores.read hclosed (i := i) (by rwa [List.length_map])
  rw [hl.pos i hi, hread, List.getElem_map]

/-- No row is in front of the file. -/
theorem Logged.pos_nonneg (hl : h.Logged log) : ∀ p ∈ log, 0 ≤ p.1 := by
  intro p hp
  obtain ⟨i, hi, rfl⟩ := List.getElem_of_mem hp
  rw [hl.pos i hi]
  exact Int.natCast_nonneg _

/-- Closing a stream that was open without writing keeps the rows. -/
theorem Logged.close (hl : h.Logged log) (recordCount : Nat) :
    ({ h with leftOpen := none, recordCount } : HeapFile).Logged log :=
  ⟨hl.stores, hl.pos, .inl rfl⟩

/-! ### `add` -/

/-- When `add` keeps the rows and reads back the new one. -/
theorem Logged.add_kept (hl : h.Logged log) (record : Record) :
    (Kept h.attributeTypes (h.add record).2 log ∧
      ∀ pos, (h.add record).1 = .ok pos →
        Kept h.attributeTypes (h.add record).2 [(pos, record)]) ↔
    (record.Writable h.attributeTypes → h.leftOpen = none ∨ h.getRecordSize = 0) ∧
      (¬ record.Writable h.attributeTypes → log = []) := by
  by_cases hw : record.Writable h.attributeTypes
  · obtain ⟨buffer, hwrite⟩ := hw
    simp only [show record.Writable h.attributeTypes from ⟨buffer, hwrite⟩, true_implies,
      not_true_eq_false, false_implies, and_true]
    rcases hl.leftOpen with hclosed | ⟨hopen, -⟩
    · have hl' := hl.add record
      have hadd := hl.stores.add hclosed hwrite
      have hstored : h.stored record = [(h.pos (log.map (·.2)).length, record)] := by
        simp only [stored, hadd, hclosed]
      rw [hstored, hadd] at hl'
      have hkept := hl'.kept hclosed
      refine iff_of_true ?_ (.inl hclosed)
      rw [hadd]
      refine ⟨fun p hp => hkept p (List.mem_append_left _ hp), fun pos hpos p hp => ?_⟩
      cases hpos
      exact hkept p (List.mem_append_right _ hp)
    · rw [add_of_open hopen hwrite]
      have hkept := (hl.close (h.recordCount + 1)).kept rfl
      have hnone : h.leftOpen ≠ none := by rw [hopen]; exact Option.some_ne_none _
      constructor
      · rintro ⟨-, hnew⟩
        refine .inr (by_contra fun hsize => ?_)
        have hread := hnew _ rfl (h.nextPos, record) (.head _)
        let h' : HeapFile := { h with leftOpen := none, recordCount := h.recordCount + 1 }
        have hclosed : h'.leftOpen = none := rfl
        have hempty : (h'.read h.nextPos).1 = {} := read_of_length_le hclosed hsize le_rfl
        exact Record.norm_ne_default ⟨buffer, hwrite⟩ (types_ne_nil_of_size hsize)
          (hread.symm.trans hempty)
      · intro hor
        have hsize := hor.resolve_left hnone
        refine ⟨hkept, fun pos hpos => kept_of_size_zero rfl rfl hsize ?_ ?_⟩
        · intro p hp
          rw [List.mem_singleton.1 hp]
          exact ⟨buffer, hwrite⟩
        · intro p hp
          cases hpos
          rw [List.mem_singleton.1 hp]
          exact Int.natCast_nonneg _
  · obtain ⟨e, he⟩ := Record.exists_error hw
    have hopen : (h.openStream false).1.leftOpen ≠ none := by
      rcases hl.leftOpen with hclosed | ⟨hopen, -⟩
      · rw [openStream_of_closed h hclosed]
        exact Option.some_ne_none _
      · rw [openStream_of_open (by rw [hopen]; exact Option.some_ne_none _), hopen]
        exact Option.some_ne_none _
    have htypes : h.attributeTypes ≠ [] := by
      intro hnil
      rw [hnil] at hw
      exact hw record.writable_nil
    rw [add_error he]
    constructor
    · rintro ⟨hk, -⟩
      exact ⟨fun hw' => absurd hw' hw, fun _ => (kept_of_open hopen htypes hl.writable).1 hk⟩
    · rintro ⟨-, hnil⟩
      exact ⟨(kept_of_open hopen htypes hl.writable).2 (hnil hw), nofun⟩

/-! ### `bulk_insert` -/

/-- The write loop hands the buffers to a stream that works. -/
theorem writeAll_ok {blocks : List Bytes} (good : Bool)
    (hb : List.Forall₂ (fun record block => Record.write record types = .ok block)
      records blocks) (h : HeapFile) (htypes : h.attributeTypes = types) {written : Bytes}
    (hopen : h.leftOpen = some written) :
    ∃ h', h.writeAll good records = (.ok (), h') ∧
      h'.close = { h with
        data := h.data ++ written ++ if good then blocks.flatten else [], leftOpen := none } := by
  induction hb generalizing h written with
  | nil =>
    refine ⟨h, rfl, ?_⟩
    rw [close, hopen]
    simp
  | @cons record block records blocks hwrite _ ih =>
    rw [← htypes] at hwrite
    cases good with
    | true =>
      obtain ⟨data, written', hput, hbytes⟩ := put_of_open hopen block
      obtain ⟨h', hrest, hclose⟩ := ih { h with data, leftOpen := some written' } htypes rfl
      refine ⟨h', ?_, ?_⟩
      · simp only [writeAll, hwrite, hput]
        exact hrest
      · simp only [hclose, hbytes, if_true, List.flatten_cons, List.append_assoc]
    | false =>
      obtain ⟨h', hrest, hclose⟩ := ih h htypes hopen
      refine ⟨h', ?_, hclose⟩
      simp only [writeAll, hwrite]
      exact hrest

/-- The write loop throws at a row that cannot be written, and leaves the stream open. -/
theorem writeAll_error (good : Bool) (hw : ¬ ∀ record ∈ records, record.Writable types)
    (h : HeapFile) (htypes : h.attributeTypes = types) (hopen : h.leftOpen ≠ none) :
    ∃ e h', h.writeAll good records = (.error e, h') ∧ h'.leftOpen ≠ none := by
  induction records generalizing h with
  | nil => exact absurd (fun _ hr => nomatch hr) hw
  | cons record records ih =>
    by_cases hrecord : record.Writable types
    · obtain ⟨buffer, hwrite⟩ := hrecord
      have hrest : ¬ ∀ record ∈ records, record.Writable types := by
        intro hall
        refine hw fun r hr => ?_
        rcases List.mem_cons.1 hr with rfl | hr
        · exact ⟨buffer, hwrite⟩
        · exact hall r hr
      have hput : (h.put good buffer).attributeTypes = types ∧
          (h.put good buffer).leftOpen ≠ none := by
        cases good with
        | true =>
          obtain ⟨written, hwritten⟩ := Option.ne_none_iff_exists'.1 hopen
          obtain ⟨data, written', hput, -⟩ := put_of_open hwritten buffer
          rw [hput]
          exact ⟨htypes, Option.some_ne_none _⟩
        | false => exact ⟨htypes, hopen⟩
      obtain ⟨e, h', hall, hopen'⟩ := ih hrest _ hput.1 hput.2
      refine ⟨e, h', ?_, hopen'⟩
      rw [← htypes] at hwrite
      simp only [writeAll, hwrite, hall]
    · obtain ⟨e, he⟩ := Record.exists_error hrecord
      refine ⟨e, h, ?_, hopen⟩
      rw [← htypes] at he
      simp only [writeAll, he]

omit [FloatType] in
/-- An open stream, whether opening it worked or not. -/
theorem openStream_leftOpen (h : HeapFile) (truncate : Bool) :
    (h.openStream truncate).1.leftOpen ≠ none ∧
      (h.openStream truncate).1.attributeTypes = h.attributeTypes := by
  by_cases hclosed : h.leftOpen = none
  · rw [openStream_of_closed h hclosed]
    exact ⟨Option.some_ne_none _, rfl⟩
  · rw [openStream_of_open hclosed]
    exact ⟨hclosed, rfl⟩

/-- `bulk_insert` of a row that cannot be written throws, and leaves the stream open. -/
theorem bulkInsert_error (hw : ¬ ∀ record ∈ records, record.Writable h.attributeTypes) :
    ∃ e h', h.bulkInsert records = (.error e, h') ∧ h'.leftOpen ≠ none := by
  obtain ⟨hopen, htypes⟩ := openStream_leftOpen h true
  obtain ⟨e, h', hall, hopen'⟩ :=
    writeAll_error (h.openStream true).2 hw (h.openStream true).1 htypes hopen
  refine ⟨e, h', ?_, hopen'⟩
  simp only [bulkInsert, hall]

/-- `bulk_insert` on a closed stream: the file holds the new rows. -/
theorem bulkInsert_of_closed (hclosed : h.leftOpen = none) {blocks : List Bytes}
    (hb : List.Forall₂ (fun record block => Record.write record h.attributeTypes = .ok block)
      records blocks) :
    h.bulkInsert records = (.ok ((List.range records.length).map h.pos),
      { h with data := blocks.flatten, recordCount := h.recordCount + records.length }) := by
  obtain ⟨names, types, key, count, data, leftOpen⟩ := h
  cases hclosed
  obtain ⟨h', hall, hclose⟩ := writeAll_ok true hb ⟨names, types, key, count, [], some []⟩ rfl rfl
  have htypes : h'.attributeTypes = types := congrArg (·.attributeTypes) hclose
  simp only [bulkInsert, openStream, if_true, hall, hclose]
  refine Prod.ext (congrArg Except.ok (List.map_congr_left fun i _ => ?_)) ?_
  · simp [HeapFile.nextPos, HeapFile.pos, getRecordSize, htypes]
  · simp

/-- `bulk_insert` through a stream that is open already writes nothing. -/
theorem bulkInsert_of_open (hopen : h.leftOpen = some []) {blocks : List Bytes}
    (hb : List.Forall₂ (fun record block => Record.write record h.attributeTypes = .ok block)
      records blocks) :
    h.bulkInsert records =
      (.ok ((List.range records.length).map fun i : Nat => h.nextPos + i * h.getRecordSize),
        { h with leftOpen := none, recordCount := h.recordCount + records.length }) := by
  obtain ⟨names, types, key, count, data, leftOpen⟩ := h
  cases hopen
  obtain ⟨h', hall, hclose⟩ :=
    writeAll_ok false hb ⟨names, types, key, count, data, some []⟩ rfl rfl
  have htypes : h'.attributeTypes = types := congrArg (·.attributeTypes) hclose
  simp [bulkInsert, openStream, hall, hclose, HeapFile.nextPos, getRecordSize, htypes]

/-- The buffers of rows that can be written. -/
theorem exists_blocks (hw : ∀ record ∈ records, record.Writable types) :
    ∃ blocks, List.Forall₂ (fun record block => Record.write record types = .ok block)
      records blocks := by
  induction records with
  | nil => exact ⟨[], .nil⟩
  | cons record records ih =>
    obtain ⟨buffer, hwrite⟩ := hw record (.head records)
    obtain ⟨blocks, hb⟩ := ih fun r hr => hw r (.tail record hr)
    exact ⟨buffer :: blocks, .cons hwrite hb⟩

/-- A file of these rows only. -/
theorem Stores.logged (hs : h.Stores records) (hclosed : h.leftOpen = none) :
    h.Logged (((List.range records.length).map h.pos).zip records) := by
  refine ⟨?_, fun i hi => ?_, .inl hclosed⟩
  · rwa [List.map_snd_zip (by simp)]
  · simp

/-- The row at a position is the one that was stored there: there is one, and it reads back the
same. -/
theorem Stores.read_iff (hs : h.Stores records) (hclosed : h.leftOpen = none)
    (hsize : h.getRecordSize ≠ 0) {i : Nat} (hw : record.Writable h.attributeTypes) :
    (h.read (h.pos i)).1 = record.norm h.attributeTypes ↔
      ∃ hi : i < records.length, records[i].norm h.attributeTypes = record.norm h.attributeTypes := by
  rcases Nat.lt_or_ge i records.length with hi | hi
  · rw [hs.read hclosed hi]
    exact ⟨fun heq => ⟨hi, heq⟩, fun ⟨_, heq⟩ => heq⟩
  · have hend : (h.data.length : Int) ≤ h.pos i := by
      have hnext : (h.data.length : Int) = h.pos records.length := hs.nextPos
      rw [hnext]
      exact Int.ofNat_le.2 (Nat.mul_le_mul_right _ hi)
    rw [read_of_length_le hclosed hsize hend]
    constructor
    · intro heq
      exact absurd heq.symm (Record.norm_ne_default hw (types_ne_nil_of_size hsize))
    · rintro ⟨hi', -⟩
      exact absurd hi' (Nat.not_lt.2 hi)

/-- The batch starts with rows that read back as the rows that were there. -/
def StartsWith (types : List FieldType) (records : List Record) (log : List (Int × Record)) :
    Prop :=
  log.map (·.2.norm types) <+: records.map (·.norm types)

/-- When `bulk_insert` on a closed stream keeps the rows and reads back the new ones. -/
theorem Logged.bulkInsert_closed (hl : h.Logged log) (hclosed : h.leftOpen = none)
    (hw : ∀ record ∈ records, record.Writable h.attributeTypes) :
    (Kept h.attributeTypes (h.bulkInsert records).2 log ∧
      ∀ positions, (h.bulkInsert records).1 = .ok positions → positions.length = records.length ∧
        Kept h.attributeTypes (h.bulkInsert records).2 (positions.zip records)) ↔
    h.getRecordSize = 0 ∨ StartsWith h.attributeTypes records log := by
  obtain ⟨blocks, hb⟩ := exists_blocks hw
  rw [bulkInsert_of_closed hclosed hb]
  let h' : HeapFile :=
    { h with data := blocks.flatten, recordCount := h.recordCount + records.length }
  have hs : h'.Stores records := ⟨blocks, hb, rfl⟩
  have hclosed' : h'.leftOpen = none := hclosed
  have hnew : Kept h.attributeTypes h' (((List.range records.length).map h.pos).zip records) :=
    (hs.logged hclosed').kept hclosed'
  have hold : Kept h.attributeTypes h' log ↔
      h.getRecordSize = 0 ∨ StartsWith h.attributeTypes records log := by
    by_cases hsize : h.getRecordSize = 0
    · exact iff_of_true (kept_of_size_zero hclosed' rfl hsize hl.writable hl.pos_nonneg) (.inl hsize)
    · have hread : ∀ i (hi : i < log.length), (h'.read log[i].1).1 = log[i].2.norm h.attributeTypes ↔
          ∃ hi' : i < records.length,
            records[i].norm h.attributeTypes = log[i].2.norm h.attributeTypes := by
        intro i hi
        rw [hl.pos i hi]
        exact hs.read_iff hclosed' hsize (hl.writable _ (List.getElem_mem hi))
      rw [or_iff_right hsize, StartsWith, List.prefix_iff_getElem]
      constructor
      · intro hk
        have hrow := fun i hi => (hread i hi).1 (hk _ (List.getElem_mem hi))
        have hlen : log.length ≤ records.length := by
          by_contra hlt
          obtain ⟨hi, -⟩ := hrow records.length (Nat.lt_of_not_le hlt)
          exact Nat.lt_irrefl _ hi
        refine ⟨by rwa [List.length_map, List.length_map], fun i hi => ?_⟩
        rw [List.length_map] at hi
        obtain ⟨_, heq⟩ := hrow i hi
        rw [List.getElem_map, List.getElem_map, heq]
      · rintro ⟨hlen, hall⟩ p hp
        obtain ⟨i, hi, rfl⟩ := List.getElem_of_mem hp
        rw [List.length_map, List.length_map] at hlen
        have heq := hall i (by rwa [List.length_map])
        rw [List.getElem_map, List.getElem_map] at heq
        exact (hread i hi).2 ⟨Nat.lt_of_lt_of_le hi hlen, heq.symm⟩
  constructor
  · rintro ⟨hk, -⟩
    exact hold.1 hk
  · intro hor
    refine ⟨hold.2 hor, fun positions hpos => ?_⟩
    cases hpos
    exact ⟨by rw [List.length_map, List.length_range], hnew⟩

/-- When `bulk_insert` through a stream that is open already reads back the new rows. -/
theorem Logged.bulkInsert_open (hl : h.Logged log) (hopen : h.leftOpen = some [])
    (hw : ∀ record ∈ records, record.Writable h.attributeTypes) :
    (Kept h.attributeTypes (h.bulkInsert records).2 log ∧
      ∀ positions, (h.bulkInsert records).1 = .ok positions → positions.length = records.length ∧
        Kept h.attributeTypes (h.bulkInsert records).2 (positions.zip records)) ↔
    h.getRecordSize = 0 ∨ records = [] := by
  obtain ⟨blocks, hb⟩ := exists_blocks hw
  rw [bulkInsert_of_open hopen hb]
  let h' : HeapFile :=
    { h with leftOpen := none, recordCount := h.recordCount + records.length }
  have hclosed : h'.leftOpen = none := rfl
  have hold : Kept h.attributeTypes h' log := (hl.close _).kept rfl
  constructor
  · rintro ⟨-, hnew⟩
    refine Decidable.or_iff_not_imp_left.2 fun hsize => ?_
    obtain ⟨-, hk⟩ := hnew _ rfl
    cases records with
    | nil => rfl
    | cons record records =>
      -- the first of the new rows would stand at the end of the file
      have hmem : (h.nextPos + (0 : Nat) * h.getRecordSize, record) ∈
          ((List.range (record :: records).length).map fun i : Nat =>
            h.nextPos + i * h.getRecordSize).zip (record :: records) := by
        rw [List.length_cons, List.range_succ_eq_map]
        exact .head _
      have hread := hk _ hmem
      have hempty : (h'.read (h.nextPos + (0 : Nat) * h.getRecordSize)).1 = {} := by
        refine read_of_length_le hclosed hsize ?_
        show (h.data.length : Int) ≤ h.data.length + (0 : Nat) * h.getRecordSize
        omega
      exact absurd (hempty.symm.trans hread) (Record.norm_ne_default (hw record (.head _))
        (types_ne_nil_of_size hsize)).symm
  · intro hor
    refine ⟨hold, fun positions hpos => ?_⟩
    cases hpos
    refine ⟨by rw [List.length_map, List.length_range], ?_⟩
    rcases hor with hsize | rfl
    · refine kept_of_size_zero hclosed rfl hsize (fun p hp => hw _ (List.of_mem_zip hp).2)
        fun p hp => ?_
      obtain ⟨i, -, hi⟩ := List.mem_map.1 (List.of_mem_zip hp).1
      rw [← hi]
      exact Int.add_nonneg (Int.natCast_nonneg _)
        (Int.mul_nonneg (Int.natCast_nonneg _) (Int.natCast_nonneg _))
    · exact fun p hp => nomatch hp

/-- When `bulk_insert` keeps the rows and reads back the new ones. -/
theorem Logged.bulkInsert_kept (hl : h.Logged log) (records : List Record) :
    (Kept h.attributeTypes (h.bulkInsert records).2 log ∧
      ∀ positions, (h.bulkInsert records).1 = .ok positions → positions.length = records.length ∧
        Kept h.attributeTypes (h.bulkInsert records).2 (positions.zip records)) ↔
    ((∀ record ∈ records, record.Writable h.attributeTypes) → h.getRecordSize = 0 ∨
      (h.leftOpen = none → StartsWith h.attributeTypes records log) ∧
      (h.leftOpen ≠ none → records = [])) ∧
    (¬ (∀ record ∈ records, record.Writable h.attributeTypes) → log = []) := by
  by_cases hw : ∀ record ∈ records, record.Writable h.attributeTypes
  · rcases hl.leftOpen with hclosed | ⟨hopen, -⟩
    · rw [hl.bulkInsert_closed hclosed hw]
      constructor
      · intro hor
        exact ⟨fun _ => hor.imp_right fun hs => ⟨fun _ => hs, fun hn => absurd hclosed hn⟩,
          fun hn => absurd hw hn⟩
      · rintro ⟨hor, -⟩
        exact (hor hw).imp_right fun hs => hs.1 hclosed
    · have hnone : h.leftOpen ≠ none := by rw [hopen]; exact Option.some_ne_none _
      rw [hl.bulkInsert_open hopen hw]
      constructor
      · intro hor
        exact ⟨fun _ => hor.imp_right fun hs => ⟨fun hn => absurd hn hnone, fun _ => hs⟩,
          fun hn => absurd hw hn⟩
      · rintro ⟨hor, -⟩
        exact (hor hw).imp_right fun hs => hs.2 hnone
  · obtain ⟨e, h', herror, hopen⟩ := bulkInsert_error hw
    have htypes : h.attributeTypes ≠ [] := by
      intro hnil
      rw [hnil] at hw
      exact hw fun record _ => record.writable_nil
    rw [herror]
    constructor
    · rintro ⟨hk, -⟩
      exact ⟨fun hw' => absurd hw' hw, fun _ => (kept_of_open hopen htypes hl.writable).1 hk⟩
    · rintro ⟨-, hnil⟩
      exact ⟨(kept_of_open hopen htypes hl.writable).2 (hnil hw), nofun⟩

/-! ### `remove` -/

/-- `remove` throws and leaves the stream open, unless there is nothing to read. -/
theorem remove_error (htypes : h.attributeTypes ≠ [])
    (hread : h.leftOpen ≠ none ∨ h.getRecordSize ≠ 0) {pos : Int} (hpos : 0 ≤ pos) :
    (h.remove pos).2.leftOpen ≠ none := by
  have hw : ∀ status, ¬ ({ status, fields := [] } : Record).Writable h.attributeTypes :=
    fun status => Record.not_writable_of_fields htypes rfl
  obtain ⟨e, he⟩ := Record.exists_error (hw .deleted)
  obtain ⟨hopen, htypes'⟩ := openStream_leftOpen h true
  have hfail : (({} : Record).read (seekg [] pos
      (if (h.openStream true).2 then some [] else none)) (h.openStream true).1.attributeTypes).2 =
      {} := by
    by_cases hclosed : h.leftOpen = none
    · have hshort : ([] : Bytes).length < recordSize h.attributeTypes :=
        Nat.pos_of_ne_zero (hread.resolve_left (not_not.2 hclosed))
      rw [openStream_of_closed h hclosed]
      simp only [if_true, seekg, if_neg (not_lt.2 hpos), List.drop_nil]
      rw [Record.read_of_short hshort]
    · rw [openStream_of_open hclosed]
      rfl
  simp only [HeapFile.remove, hfail]
  rw [htypes', he]
  exact hopen

/-- `remove` of a row of no bytes. -/
theorem remove_of_size_zero (hclosed : h.leftOpen = none) (hsize : h.getRecordSize = 0)
    (hw : record.Writable h.attributeTypes) {pos : Int} (hpos : 0 ≤ pos) :
    h.remove pos = (.ok true, { h with data := [] }) := by
  obtain ⟨names, types, key, count, data, leftOpen⟩ := h
  cases hclosed
  obtain ⟨buffer, hwrite⟩ := Record.writable_norm hsize hw
  have hnil : buffer = [] :=
    List.length_eq_zero_iff.1 ((Record.length_write hwrite).trans hsize)
  subst hnil
  have hread := Record.read_of_size_zero hsize hw []
  have hwrite' : ({ status := .deleted, fields := (record.norm types).fields } : Record).write
      types = .ok [] := hwrite
  simp [HeapFile.remove, openStream, seekg, not_lt.2 hpos, hread, hwrite', put, close]

/-- When `remove` keeps the other rows. -/
theorem Logged.remove_kept (hl : h.Logged log) {i : Nat} (hi : i < log.length) :
    Kept h.attributeTypes (h.remove log[i].1).2 (log.eraseIdx i) ↔
      log.length = 1 ∨ h.leftOpen = none ∧ h.getRecordSize = 0 := by
  have hmem := List.getElem_mem hi
  have hpos := hl.pos_nonneg _ hmem
  have hsub : ∀ p ∈ log.eraseIdx i, p ∈ log := fun p hp => (List.eraseIdx_sublist log i).mem hp
  by_cases hzero : h.leftOpen = none ∧ h.getRecordSize = 0
  · obtain ⟨hclosed, hsize⟩ := hzero
    rw [remove_of_size_zero hclosed hsize (hl.writable _ hmem) hpos]
    exact iff_of_true (kept_of_size_zero hclosed rfl hsize (fun p hp => hl.writable p (hsub p hp))
      fun p hp => hl.pos_nonneg p (hsub p hp)) (.inr ⟨hclosed, hsize⟩)
  · have hread : h.leftOpen ≠ none ∨ h.getRecordSize ≠ 0 := not_and_or.1 hzero
    have htypes : h.attributeTypes ≠ [] := hread.elim hl.types_ne_nil types_ne_nil_of_size
    rw [kept_of_open (remove_error htypes hread hpos) htypes
      fun p hp => hl.writable p (hsub p hp), or_iff_left hzero, ← List.length_eq_zero_iff,
      List.length_eraseIdx_of_lt hi]
    omega

/-! ## The law -/

/-- After any run of `add` calls, exactly when a call keeps the rows and reads back the ones it
added. -/
theorem kept_iff (hrun : AddRun h log) :
    (∀ record, (Kept h.attributeTypes (h.add record).2 log ∧
        ∀ pos, (h.add record).1 = .ok pos →
          Kept h.attributeTypes (h.add record).2 [(pos, record)]) ↔
      (record.Writable h.attributeTypes → h.leftOpen = none ∨ h.getRecordSize = 0) ∧
        (¬ record.Writable h.attributeTypes → log = [])) ∧
    (∀ records, (Kept h.attributeTypes (h.bulkInsert records).2 log ∧
        ∀ positions, (h.bulkInsert records).1 = .ok positions → positions.length = records.length ∧
          Kept h.attributeTypes (h.bulkInsert records).2 (positions.zip records)) ↔
      ((∀ record ∈ records, record.Writable h.attributeTypes) → h.getRecordSize = 0 ∨
        (h.leftOpen = none → StartsWith h.attributeTypes records log) ∧
        (h.leftOpen ≠ none → records = [])) ∧
      (¬ (∀ record ∈ records, record.Writable h.attributeTypes) → log = [])) ∧
    (∀ i (hi : i < log.length), Kept h.attributeTypes (h.remove log[i].1).2 (log.eraseIdx i) ↔
      log.length = 1 ∨ h.leftOpen = none ∧ h.getRecordSize = 0) :=
  ⟨hrun.logged.add_kept, hrun.logged.bulkInsert_kept, fun _ hi => hrun.logged.remove_kept hi⟩

end HeapFile

end

namespace HeapFile
attribute [local instance] noFloats

/-- A table of one `INT` column after two rows. -/
def twoRows : HeapFile :=
  ((create [ascii "id"] [.int] (ascii "id")).addAll
    [{ fields := [ascii "1"] }, { fields := [ascii "2"] }]).2

/-- Two rows of one `INT`. -/
theorem addRun_twoRows :
    AddRun twoRows [(0, { fields := [ascii "1"] }), (4, { fields := [ascii "2"] })] := by
  have h0 := AddRun.create [ascii "id"] [.int] (ascii "id")
  have h1 := h0.add { fields := [ascii "1"] }
  have h2 := h1.add { fields := [ascii "2"] }
  exact (congrArg (AddRun twoRows) (by decide)).mp h2

/-- `bulk_insert` of a third row loses both rows, and `remove` of the first loses the second. -/
theorem not_kept : ∃ (h : HeapFile) (log : List (Int × Record)), AddRun h log ∧
    ¬ Kept h.attributeTypes (h.bulkInsert [{ fields := [ascii "3"] }]).2 log ∧
    ¬ Kept h.attributeTypes (h.remove 0).2 (log.eraseIdx 0) := by
  refine ⟨twoRows, _, addRun_twoRows, fun hk => ?_, fun hk => ?_⟩
  · exact absurd (hk _ (.head _)) (by decide)
  · exact absurd (hk _ (.head _)) (by decide)

/-- `add` of a third row keeps both. -/
theorem kept_iff_sample : ∃ (h : HeapFile) (log : List (Int × Record)), log.length = 2 ∧
    Kept h.attributeTypes (h.add { fields := [ascii "3"] }).2 log := by
  refine ⟨twoRows, _, rfl,
    (((kept_iff addRun_twoRows).1 { fields := [ascii "3"] }).2 ⟨fun _ => .inl rfl, ?_⟩).1⟩
  exact fun hw => absurd ⟨_, rfl⟩ hw

end HeapFile

end DbEngine

end Rdbms
