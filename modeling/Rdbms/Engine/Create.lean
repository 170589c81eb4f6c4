import Rdbms.Heap.Sizes
import Rdbms.Heap.Load
import Rdbms.Engine.Positions
import Rdbms.Engine.Reached

/-!
# Creating tables and indexes

`create_table` takes columns of any sizes (`createTable_sizes_iff`). `create_index` loads the rows of
the table and gives them positions of its own, which start where those of the last call ended: the
variable that they are counted in is static. So only the first call of all that reads a row pairs
each key with its own row (`createIndex_pairs_iff`).
-/

namespace Rdbms

namespace DbEngine

section
variable [FloatType] {e e' e1 : DBEngine} {tableName columnName : Bytes} {table : HeapFile}
  {fuel i j : Nat} {kind : IndexType} {pairs : List (Int × Int)}

namespace DBEngine

/-! ## `create_table` -/

/-- The table that `create_table` makes. -/
theorem lookup_createTable {primaryKey : Bytes} {types : List FieldType} {names : List Bytes}
    (h : e.createTable tableName primaryKey types names = (.ok true, e')) :
    e'.tablesRaw.lookup tableName =
      some { attributeNames := names, attributeTypes := types, primaryKey } := by
  have hmem : tableName ∉ e.tablesRaw := fun hmem => by
    rw [createTable, if_pos hmem] at h
    cases h
  have hnew : (e.tablesRaw.emplace tableName
      { attributeNames := names, attributeTypes := types, primaryKey }).lookup tableName =
        some { attributeNames := names, attributeTypes := types, primaryKey } := by
    rw [KeyedMap.lookup_emplace_self, AList.lookup_eq_none.2 hmem]
    rfl
  rw [createTable, if_neg hmem] at h
  simp only at h
  split at h <;> cases h <;> exact hnew

/-- The table that `create_table` makes keeps and uses the exact size of a record, refuses no row
that casts and copies within its buffers, exactly when the sizes of the columns add up to what a
`uint8_t` holds. -/
theorem createTable_sizes_iff {primaryKey : Bytes} {types : List FieldType} {names : List Bytes}
    (h : e.createTable tableName primaryKey types names = (.ok true, e')) :
    ∃ table, e'.tablesRaw.lookup tableName = some table ∧ table.attributeTypes = types ∧
      (table.SizesExact ↔ (types.map FieldType.size).sum ≤ 255) :=
  ⟨_, lookup_createTable h, rfl, HeapFile.sizesExact_iff _⟩

/-! ## The pairs -/

section
variable {κ : Type} {cast : Bytes → Except Exn κ} {recordSize : Nat} {record : Record}
  {records : List Record} {key : κ}

omit [FloatType] in
/-- A row that can be cast gets the next position. -/
theorem keyValues_cons (hkey : (HeapFile.vectorAt record.fields 0).bind cast = .ok key)
    (prevPos : Option Int) : keyValues cast recordSize (record :: records) prevPos =
      let rest := keyValues cast recordSize records (some (posGetter recordSize prevPos))
      (rest.1.map ((key, posGetter recordSize prevPos) :: ·), rest.2) := by
  simp only [keyValues, hkey]

omit [FloatType] in
/-- A row that cannot be cast makes `create_index` throw. -/
theorem keyValues_error (h : ∃ record ∈ records, ∃ ex,
    (HeapFile.vectorAt record.fields 0).bind cast = .error ex) (prevPos : Option Int) :
    ∃ ex prevPos', keyValues cast recordSize records prevPos = (.error ex, prevPos') := by
  obtain ⟨record, hmem, ex, hex⟩ := h
  induction records generalizing prevPos with
  | nil => cases hmem
  | cons first records ih =>
    cases hfirst : (HeapFile.vectorAt first.fields 0).bind cast with
    | error ex => exact ⟨ex, prevPos, by simp only [keyValues, hfirst]⟩
    | ok key =>
      have hrest : record ∈ records := by
        rcases List.mem_cons.1 hmem with rfl | hmem
        · cases hfirst.symm.trans hex
        · exact hmem
      obtain ⟨ex', prevPos', hkeys⟩ := ih (some (posGetter recordSize prevPos)) hrest
      refine ⟨ex', prevPos', ?_⟩
      rw [keyValues_cons hfirst, hkeys]
      rfl

omit [FloatType] in
/-- The keys with consecutive positions. -/
theorem keyValues_ok {keys : List κ} (h : List.Forall₂ (fun (record : Record) key =>
      (HeapFile.vectorAt record.fields 0).bind cast = .ok key) records keys) (prevPos : Option Int)
    (recordSize : Nat) :
    ∃ pairs prevPos', keyValues cast recordSize records prevPos = (.ok pairs, prevPos') ∧
      (prevPos' = none ↔ prevPos = none ∧ records = []) ∧ pairs.map (·.1) = keys ∧
      ∀ n (hn : n < pairs.length), pairs[n].2 = posGetter recordSize prevPos + n * recordSize := by
  induction h generalizing prevPos with
  | nil => exact ⟨[], prevPos, rfl, by simp, rfl, nofun⟩
  | @cons record key records keys hfirst _ ih =>
    obtain ⟨pairs, prevPos', hkeys, hnone, hmap, hpos⟩ := ih (some (posGetter recordSize prevPos))
    refine ⟨(key, posGetter recordSize prevPos) :: pairs, prevPos', ?_, ?_, ?_, fun n hn => ?_⟩
    · rw [keyValues_cons hfirst, hkeys]
      rfl
    · simp [hnone]
    · rw [List.map_cons, hmap]
    · cases n with
      | zero => simp
      | succ n =>
        have hn' : n < pairs.length := Nat.lt_of_succ_lt_succ hn
        have hnext : posGetter recordSize (some (posGetter recordSize prevPos)) =
          posGetter recordSize prevPos + recordSize := rfl
        rw [List.getElem_cons_succ, hpos n hn', hnext, Nat.cast_succ, Int.add_mul, Int.one_mul]
        omega

end

/-- The maps of indexes are the same. -/
def SameIndexes (e e' : DBEngine) : Prop :=
  e'.avlIndexes = e.avlIndexes ∧ e'.isamIndexes = e.isamIndexes ∧
    e'.sequentialIndexes = e.sequentialIndexes

/-- The numbers in a column of the rows, and consecutive positions behind that of the last call. -/
structure Paired (table : HeapFile) (i : Nat) (prevPos : Option Int) (pairs : List (Int × Int)) :
    Prop where
  length : pairs.length = table.recordCount
  key : ∀ n (hn : n < pairs.length), (table.rowAt n).intAt i = .ok pairs[n].1
  pos : ∀ n (hn : n < pairs.length),
    pairs[n].2 = posGetter table.getRecordSize prevPos + n * table.getRecordSize

/-- `load` with one column. -/
theorem load_column (hlookup : e.tablesRaw.lookup tableName = some table)
    (hidx : table.getAttributeIdx columnName = .ok i) :
    e.load tableName [columnName] = (.ok (table.load.1.map fun record =>
        { record with fields := HeapFile.filterFields [i] record.fields }),
      e.setTable tableName table.load.2) := by
  have hnames : table.load.2.attributeNames = table.attributeNames := by
    show (table.openStream false).1.attributeNames = _
    rw [HeapFile.openStream]
    split <;> rfl
  have hidx' : table.load.2.getAttributeIdx columnName = .ok i := by
    rw [HeapFile.getAttributeIdx, hnames]
    exact hidx
  simp only [load, tableAt_of_lookup hlookup, HeapFile.filter, List.mapM_cons, List.mapM_nil, hidx',
    bind, Except.bind, pure, Except.pure]

omit [FloatType] in
/-- A column with a type has a place. -/
theorem getAttributeIdx_of_getType {type : FieldType} (h : table.getType columnName = .ok type) :
    ∃ i, table.getAttributeIdx columnName = .ok i ∧ table.attributeTypes[i]? = some type := by
  unfold HeapFile.getType at h
  cases hidx : table.getAttributeIdx columnName with
  | error ex =>
    rw [hidx] at h
    cases h
  | ok i =>
    rw [hidx] at h
    exact ⟨i, rfl, HeapFile.vectorAt_eq_ok.1 h⟩

/-- The numbers in a column of the rows that `load` gives. -/
theorem exists_keys (hr : table.Readable) (htype : table.attributeTypes[i]? = some .int) :
    ∃ keys, List.Forall₂ (fun (record : Record) key =>
        (HeapFile.vectorAt record.fields 0).bind stoi = .ok key)
      (table.load.1.map fun record =>
        { record with fields := HeapFile.filterFields [i] record.fields }) keys ∧
      keys.length = table.recordCount ∧
      ∀ n (hn : n < keys.length), (table.rowAt n).intAt i = .ok keys[n] := by
  have hkeys : ∀ m ≤ table.recordCount, ∃ keys, List.Forall₂ (fun (record : Record) key =>
      (HeapFile.vectorAt record.fields 0).bind stoi = .ok key)
      (((List.range m).map table.rowAt).map fun record =>
        { record with fields := HeapFile.filterFields [i] record.fields }) keys ∧
      keys.length = m ∧ ∀ n (hn : n < keys.length), (table.rowAt n).intAt i = .ok keys[n] := by
    intro m hm
    induction m with
    | zero => exact ⟨[], .nil, rfl, nofun⟩
    | succ m ih =>
      obtain ⟨keys, hall, hlen, hrows⟩ := ih (Nat.le_of_succ_le hm)
      obtain ⟨z, hz⟩ := hr.intAt htype hm
      refine ⟨keys ++ [z], ?_, by rw [List.length_append, hlen]; rfl, fun n hn => ?_⟩
      · rw [List.range_succ, List.map_append, List.map_append]
        exact List.rel_append hall (.cons ((intAt_filterFields (table.rowAt m) i).trans hz) .nil)
      · rw [List.length_append, List.length_singleton] at hn
        rcases Nat.lt_succ_iff_lt_or_eq.1 hn with hlt | rfl
        · rw [List.getElem_append_left hlt]
          exact hrows n hlt
        · rw [List.getElem_concat_length rfl, hlen]
          exact hz
  rw [HeapFile.load_of_readable hr]
  exact hkeys _ le_rfl

section
variable [Unspecified] [IntCast FloatType.Value]

/-- What a call of `create_index` on an `INT` column builds, and what `bulk_insert` of it comes to. -/
def Builds (e : DBEngine) (fuel : Nat) (tableName columnName : Bytes) (kind : IndexType)
    (table : HeapFile) (pairs : List (Int × Int)) (res : Option (Outcome DBEngine Unit)) : Prop :=
  ∃ records e1 prevPos, e.load tableName [columnName] = (.ok records, e1) ∧
    keyValues stoi table.getRecordSize records e1.prevPos = (.ok pairs, prevPos) ∧
    { e1 with prevPos }.bulkIndex fuel ⟨tableName, columnName⟩ kind .int pairs = res

/-- `create_index` on an `INT` column. -/
theorem createIndex_int (hlookup : e.tablesRaw.lookup tableName = some table)
    (hint : table.getType columnName = .ok .int) (fuel : Nat) :
    e.createIndex fuel tableName columnName kind =
      e.loadIndex fuel ⟨tableName, columnName⟩ kind .int stoi table.getRecordSize := by
  simp only [createIndex, tableAt_of_lookup hlookup, hint]

/-- When the rows can be read, a call comes to `bulk_insert`. -/
theorem createIndex_of_readable (hlookup : e.tablesRaw.lookup tableName = some table)
    (hint : table.getType columnName = .ok .int)
    (hidx : table.getAttributeIdx columnName = .ok i) (hr : table.Readable) (kind : IndexType) :
    ∃ pairs e1, Paired table i e.prevPos pairs ∧ SameIndexes e e1 ∧
      e1.tablesRaw = (e.setTable tableName table.load.2).tablesRaw ∧
      (e1.prevPos = none ↔ e.prevPos = none ∧ table.recordCount = 0) ∧
      ∀ fuel, e.createIndex fuel tableName columnName kind =
          e1.bulkIndex fuel ⟨tableName, columnName⟩ kind .int pairs ∧
        e.Builds fuel tableName columnName kind table pairs
          (e1.bulkIndex fuel ⟨tableName, columnName⟩ kind .int pairs) := by
  obtain ⟨i', hidx', htype⟩ := getAttributeIdx_of_getType hint
  cases hidx.symm.trans hidx'
  have hload := load_column hlookup hidx
  obtain ⟨keys, hall, hlen, hrows⟩ := exists_keys hr htype
  obtain ⟨pairs, prevPos, hvalues, hnone, hmap, hpos⟩ :=
    keyValues_ok hall e.prevPos table.getRecordSize
  have hplen : pairs.length = keys.length := by rw [← hmap, List.length_map]
  have hnil : (table.load.1.map fun record =>
      ({ record with fields := HeapFile.filterFields [i] record.fields } : Record)) = [] ↔
      table.recordCount = 0 := by
    rw [← List.length_eq_zero_iff, hall.length_eq, hlen]
  refine ⟨pairs, { e.setTable tableName table.load.2 with prevPos },
    ⟨hplen.trans hlen, fun n hn => ?_, hpos⟩, ⟨rfl, rfl, rfl⟩, rfl, hnone.trans (and_congr_right' hnil),
    fun fuel => ⟨?_, _, _, prevPos, hload, hvalues, rfl⟩⟩
  · have hkey := hrows n (hplen ▸ hn)
    simpa only [← hmap, List.getElem_map] using hkey
  · have hvalues' : keyValues stoi table.getRecordSize (table.load.1.map fun record =>
        { record with fields := HeapFile.filterFields [i] record.fields })
        (e.setTable tableName table.load.2).prevPos = (.ok pairs, prevPos) := hvalues
    rw [createIndex_int hlookup hint, loadIndex, hload]
    simp only [hvalues']

/-- When they cannot, it throws before it comes to the indexes. -/
theorem createIndex_of_not_readable (hlookup : e.tablesRaw.lookup tableName = some table)
    (hint : table.getType columnName = .ok .int) (hr : ¬ table.Readable) (kind : IndexType) :
    ∃ ex e1, SameIndexes e e1 ∧
      ∀ fuel, e.createIndex fuel tableName columnName kind = some (.error ex, e1) := by
  obtain ⟨i, hidx, -⟩ := getAttributeIdx_of_getType hint
  have hload := load_column hlookup hidx
  obtain ⟨record, hmem, hfields⟩ := HeapFile.load_of_not_readable hr
  obtain ⟨ex', hex⟩ := intAt_of_fields hfields i
  have hfirst : (HeapFile.vectorAt (HeapFile.filterFields [i] record.fields) 0).bind stoi =
      .error ex' := (intAt_filterFields record i).trans hex
  obtain ⟨ex, prevPos, hkeys⟩ : ∃ ex prevPos, keyValues stoi table.getRecordSize
      (table.load.1.map fun record =>
        { record with fields := HeapFile.filterFields [i] record.fields })
      (e.setTable tableName table.load.2).prevPos = (.error ex, prevPos) :=
    keyValues_error ⟨_, List.mem_map_of_mem hmem, ex', hfirst⟩ _
  refine ⟨ex, { e.setTable tableName table.load.2 with prevPos }, ⟨rfl, rfl, rfl⟩, fun fuel => ?_⟩
  rw [createIndex_int hlookup hint, loadIndex, hload]
  simp only [hkeys]

/-! ## The pairs and the rows -/

omit [Unspecified] [IntCast FloatType.Value] in
/-- Each row is paired with its own position: the `n`-th pair has the number in the column `j` of the
`n`-th row and the position of that row, and the heap file has a row with that number there. -/
def OwnRows (table : HeapFile) (j : Nat) (pairs : List (Int × Int)) : Prop :=
  pairs.length = table.recordCount ∧ ∀ n (hn : n < pairs.length),
    (table.rowAt n).intAt j = .ok pairs[n].1 ∧ pairs[n].2 = (n * table.getRecordSize : Nat) ∧
      (table.read pairs[n].2).1.intAt j = .ok pairs[n].1

/-- In every state of the engine, a call of `create_index` on an `INT` column that comes back pairs
each row with its own position exactly when the table has no rows, or no call before has read a row
(and the column that `get_attribute_idx` gives has the same numbers, which is the column itself when
it is one of the first 256). After a call on a table with rows, that is over. -/
theorem createIndex_pairs_iff (h : Reached e) (hlookup : e.tablesRaw.lookup tableName = some table)
    (hcolumn : table.attributeNames.findIdx? (· = columnName) = some j)
    (hint : table.getType columnName = .ok .int)
    (hret : e.createIndex fuel tableName columnName kind = some (.ok (), e')) :
    ∃ pairs, e.Builds fuel tableName columnName kind table pairs (some (.ok (), e')) ∧
      (OwnRows table j pairs ↔ table.recordCount = 0 ∨ e.prevPos = none ∧
        ∀ n < table.recordCount, (table.rowAt n).intAt (j % 256) = (table.rowAt n).intAt j) ∧
      (e'.prevPos = none ↔ e.prevPos = none ∧ table.recordCount = 0) := by
  have hidx : table.getAttributeIdx columnName = .ok (j % 256) := by
    rw [HeapFile.getAttributeIdx, hcolumn]
  obtain ⟨i, hidx', htype⟩ := getAttributeIdx_of_getType hint
  have hr : table.Readable := by
    by_contra hr
    obtain ⟨ex, e1, -, hthrow⟩ := createIndex_of_not_readable hlookup hint hr kind
    cases (hthrow fuel).symm.trans hret
  obtain ⟨pairs, e1, hpaired, -, -, hnone, hcall⟩ := createIndex_of_readable hlookup hint hidx hr kind
  obtain ⟨hbulk, hbuilds⟩ := hcall fuel
  rw [← hbulk, hret] at hbuilds
  rw [hbulk] at hret
  refine ⟨pairs, hbuilds, ⟨fun hown => ?_, fun hwhen => ?_⟩, ?_⟩
  · obtain ⟨-, hrows⟩ := hown
    by_cases hzero : table.recordCount = 0
    · exact .inl hzero
    · have hlen : pairs.length = table.recordCount := hpaired.length
      refine .inr ⟨?_, fun n hn => ?_⟩
      · -- the first row has the position 0, and the static variable is not negative
        have h0 : 0 < pairs.length := by omega
        have hfirst := hpaired.pos 0 h0
        rw [(hrows 0 h0).2.1] at hfirst
        cases hprev : e.prevPos with
        | none => rfl
        | some pos =>
          have hpos := h.counted.prevPos pos hprev
          have hsize := (h.counted.tables _ _ hlookup).size_pos hzero htype
          rw [hprev, posGetter, Option.getD_some] at hfirst
          simp only [Nat.zero_mul, Nat.cast_zero, Int.zero_mul] at hfirst
          omega
      · rw [hpaired.key n (by omega), (hrows n (by omega)).1]
  · refine ⟨hpaired.length, fun n hn => ?_⟩
    rcases hwhen with hzero | ⟨hprev, hsame⟩
    · have hlen := hpaired.length
      omega
    · have hkey : (table.rowAt n).intAt j = .ok pairs[n].1 := by
        rw [← hsame n (hpaired.length ▸ hn), hpaired.key n hn]
      have hpos : pairs[n].2 = (n * table.getRecordSize : Nat) := by
        rw [hpaired.pos n hn, hprev, posGetter, Option.getD_none, Nat.cast_mul]
        omega
      exact ⟨hkey, hpos, by rw [hpos]; exact hkey⟩
  · rw [(bulkIndex_state hret).2, hnone]

end

end DBEngine

end

section
attribute [local instance] noFloats firstChoice

local instance : IntCast noFloats.Value := ⟨fun _ => ()⟩

/-- A table of one `INT` column is created. -/
theorem createTable_sizes_iff_sample : ∃ e' table,
    (({} : DBEngine).createTable (ascii "t") (ascii "id") [.int] [ascii "id"]) = (.ok true, e') ∧
    e'.tablesRaw.lookup (ascii "t") = some table ∧ (table.SizesExact ↔ 4 ≤ 255) := by
  obtain ⟨table, hlookup, -, hiff⟩ := DBEngine.createTable_sizes_iff
    (rfl : ({} : DBEngine).createTable (ascii "t") (ascii "id") [.int] [ascii "id"] = (.ok true, _))
  exact ⟨_, table, rfl, hlookup, hiff⟩

/-- A `VARCHAR(255)` next to an `INT`: the record size is 3, and no row can be written. -/
theorem not_sizesExact : ∃ e' table,
    (({} : DBEngine).createTable (ascii "t") (ascii "id") [.int, .varchar 255]
      [ascii "id", ascii "x"]) = (.ok true, e') ∧
    e'.tablesRaw.lookup (ascii "t") = some table ∧ table.getRecordSize = 3 ∧
    rowCodec.Accepts table.attributeTypes [ascii "1", ascii "a"] ∧
    ({ fields := [ascii "1", ascii "a"] } : Record).write table.attributeTypes =
      .error (.runtimeError "Buffer overflow detected") :=
  ⟨_, _, rfl, rfl, rfl, .cons ⟨_, rfl⟩ (.cons ⟨_, rfl⟩ .nil), rfl⟩

/-- The second index of the process gets the position behind that of the first for its row. -/
theorem not_ownRows : ∃ e e' table pairs, DBEngine.Reached e ∧
    e.tablesRaw.lookup (ascii "u") = some table ∧
    e.createIndex 5 (ascii "u") (ascii "id") .avl = some (.ok (), e') ∧
    e.Builds 5 (ascii "u") (ascii "id") .avl table pairs (some (.ok (), e')) ∧
    pairs = [(7, 4)] ∧ ¬ DBEngine.OwnRows table 0 pairs := by
  have h1 := DBEngine.Reached.start.createTable (ascii "t") (ascii "id") [.int] [ascii "id"]
  have h2 : DBEngine.Reached _ :=
    h1.perform (rfl : DBEngine.perform 5 (ascii "t") _ (.add [ascii "7"]) = some (_, _))
  have h3 := h2.createTable (ascii "u") (ascii "id") [.int] [ascii "id"]
  have h4 : DBEngine.Reached _ :=
    h3.perform (rfl : DBEngine.perform 5 (ascii "u") _ (.add [ascii "7"]) = some (_, _))
  have h5 : DBEngine.Reached _ :=
    h4.perform (rfl : DBEngine.perform 5 (ascii "t") _ (.createIndex (ascii "id") .avl) = some (_, _))
  refine ⟨_, _, _, [(7, 4)], h5, rfl, rfl, ⟨_, _, _, rfl, rfl, rfl⟩, rfl, ?_⟩
  rintro ⟨-, hrows⟩
  exact absurd (hrows 0 (by decide)).2.1 (by decide)

/-- The first index of the process. -/
theorem createIndex_pairs_iff_sample : ∃ e e' table pairs, DBEngine.Reached e ∧
    e.createIndex 5 (ascii "t") (ascii "id") .avl = some (.ok (), e') ∧
    e.tablesRaw.lookup (ascii "t") = some table ∧ table.recordCount = 1 ∧
    DBEngine.OwnRows table 0 pairs := by
  have h1 := DBEngine.Reached.start.createTable (ascii "t") (ascii "id") [.int] [ascii "id"]
  have h2 : DBEngine.Reached _ :=
    h1.perform (rfl : DBEngine.perform 5 (ascii "t") _ (.add [ascii "7"]) = some (_, _))
  obtain ⟨pairs, -, hiff, -⟩ : ∃ pairs,
      DBEngine.Builds _ 5 (ascii "t") (ascii "id") .avl _ pairs (some (.ok (), _)) ∧
        (DBEngine.OwnRows _ 0 pairs ↔ _) ∧ _ :=
    DBEngine.createIndex_pairs_iff h2 rfl rfl rfl rfl
  refine ⟨_, _, _, pairs, h2, rfl, rfl, rfl, hiff.2 (.inr ⟨rfl, fun n hn => ?_⟩)⟩
  rfl

end

end DbEngine

end Rdbms
