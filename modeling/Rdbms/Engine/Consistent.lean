import Rdbms.Sequential.Load
import Rdbms.Engine.Register
import Rdbms.Engine.Remove

/-!
# Indexes and rows

A sequential index mirrors a column of its table when it holds, for every row, the number in the
column with the position of the row, and nothing else. `create_table` starts with such indexes, and
a run of successful calls keeps them (`indexes_of_run`) as long as `add` is only called on tables
without an index on another column than the primary key, since it does not tell those, and
`create_index` makes its first index on a table with rows before it has made another on one, since
its positions go on from there. `remove` does not succeed at all.
-/

namespace Rdbms

namespace DbEngine

section
variable [FloatType] {e e' : DBEngine} {tableName columnName : Bytes} {table : HeapFile} {fuel : Nat}
  {row : List Bytes} {rows : List (List Bytes)} {log : List (Bytes × List Bytes)} {i n : Nat}
  {types : List FieldType} {record : Record} {buffer : Bytes}

/-! ## The rows of a table -/

/-- A stored row has the same numbers. -/
theorem intAt_norm (hwrite : record.write types = .ok buffer) (htype : types[i]? = some .int) :
    (record.norm types).intAt i = record.intAt i := by
  have hrow : rowCodec.Accepts types record.fields := (Record.write_eq_ok.1 hwrite).1.accepts
  obtain ⟨field, bytes, hfield, hencode⟩ := hrow.getElem? htype
  have hencode : (stoi field).map _ = .ok bytes := hencode
  have hvector : ∀ {r : Record} {f : Bytes}, r.fields[i]? = some f → r.intAt i = stoi f :=
    fun h => by rw [Record.intAt, HeapFile.vectorAt_eq_ok.2 h, Except.bind]
  cases hk : stoi field with
  | error ex =>
    rw [hk] at hencode
    cases hencode
  | ok k =>
    obtain ⟨field', hfield', hk'⟩ := stoi_norm htype hfield hk
    rw [hvector hfield', hvector hfield, hk', hk]

namespace HeapFile

/-- The heap file of a table of `INT` columns with these rows. -/
structure Filled (table : HeapFile) (rows : List (List Bytes)) : Prop where
  ints : ∀ type ∈ table.attributeTypes, type = .int
  int : .int ∈ table.attributeTypes
  columns : table.attributeNames.length ≤ 256
  closed : table.leftOpen = none
  stores : table.Stores (rows.map fun row => { fields := row })
  count : table.recordCount = rows.length

/-- `load` of a filled heap changes nothing. -/
theorem Filled.load (h : table.Filled rows) : table.load.2 = table := by
  have hcount : table.recordCount = (rows.map fun row => ({ fields := row } : Record)).length := by
    rw [List.length_map, h.count]
  rw [h.stores.load h.closed hcount]

/-- All rows of a filled heap can be read. -/
theorem Filled.readable (h : table.Filled rows) : table.Readable := by
  refine .inr ⟨h.closed, ?_⟩
  have hend : (table.data.length : Int) = table.pos _ := h.stores.nextPos
  rw [HeapFile.pos, List.length_map, Nat.cast_inj] at hend
  rw [hend, h.count]

/-- The number in an `INT` column of a row. -/
theorem Filled.intAt (h : table.Filled rows) (htype : table.attributeTypes[i]? = some .int)
    (hn : n < rows.length) : (table.rowAt n).intAt i = ({ fields := rows[n] } : Record).intAt i := by
  have hn' : n < (rows.map fun row => ({ fields := row } : Record)).length := by rwa [List.length_map]
  obtain ⟨blocks, hb, -⟩ := h.stores
  have hwrite := hb.get hn' (hb.length_eq ▸ hn')
  rw [List.get_eq_getElem, List.getElem_map] at hwrite
  rw [rowAt, h.stores.read h.closed hn', List.getElem_map]
  exact intAt_norm hwrite htype

/-- A row is added. -/
theorem Filled.add (h : table.Filled rows) {pos : Int} {table' : HeapFile}
    (hadd : table.add { fields := row } = (.ok pos, table')) :
    table'.Filled (rows ++ [row]) ∧ table'.attributeNames = table.attributeNames ∧
      table'.attributeTypes = table.attributeTypes := by
  cases hwrite : ({ fields := row } : Record).write table.attributeTypes with
  | error ex =>
    rw [add_error hwrite] at hadd
    cases hadd
  | ok buffer =>
    rw [add_of_closed h.closed hwrite] at hadd
    cases hadd
    refine ⟨⟨h.ints, h.int, h.columns, h.closed, ?_, ?_⟩, rfl, rfl⟩
    · rw [List.map_append]
      exact h.stores.append hwrite _
    · rw [List.length_append]
      exact congrArg (· + 1) h.count

end HeapFile

omit [FloatType] in
/-- The key of a row is a field of one column. -/
theorem HeapFile.getKey_ok {type : FieldType} {attr : Attribute}
    (h : table.getKey record = .ok (type, attr)) :
    ∃ i, table.getAttributeIdx table.primaryKey = .ok i ∧ table.attributeTypes[i]? = some type ∧
      record.fields[i]? = some attr.value := by
  obtain ⟨i, hi, h⟩ := bind_eq_ok.1 h
  obtain ⟨type', htype, h⟩ := bind_eq_ok.1 h
  obtain ⟨value, hvalue, h⟩ := bind_eq_ok.1 h
  obtain ⟨name, -, h⟩ := bind_eq_ok.1 h
  cases h
  exact ⟨i, hi, vectorAt_eq_ok.1 htype, vectorAt_eq_ok.1 hvalue⟩

namespace DBEngine

/-- The index holds, for every row, the number in the column and the position, and nothing else. -/
def Mirrors (table : HeapFile) (i : Nat) (rows : List (List Bytes)) (si : SequentialIndex Int) :
    Prop :=
  ∃ keys, List.Forall₂ (fun row k => ({ fields := row } : Record).intAt i = .ok k) rows keys ∧
    si.Holds (entries table keys)

omit [FloatType] in
/-- An index that mirrors a column holds its entries. -/
theorem Mirrors.holds (h : Mirrors table i rows si) : ∃ keys, si.Holds (entries table keys) := by
  obtain ⟨keys, -, hholds⟩ := h
  exact ⟨keys, hholds⟩

omit [FloatType] in
/-- A new index mirrors a column without rows. -/
theorem mirrors_createFile (pk : Bool) (table : HeapFile) (i : Nat) :
    Mirrors table i [] (.createFile pk) :=
  ⟨[], .nil, [], Multimap.empty, SequentialIndex.wellFormed_createFile pk, .nil, .nil⟩

omit [FloatType] in
/-- A row more is one of its table. -/
theorem live_append (tableName' : Bytes) : live (log ++ [(tableName, row)]) tableName' =
    live log tableName' ++ if tableName = tableName' then [row] else [] := by
  rw [live, live, List.filter_append, List.map_append]
  by_cases h : tableName = tableName'
  · simp [h]
  · simp [h]

/-- The tables hold the rows of `log`, and every sequential index mirrors its column. -/
structure Consistent (log : List (Bytes × List Bytes)) (e : DBEngine) : Prop where
  filled : ∀ tableName table, e.tablesRaw.lookup tableName = some table →
    table.Filled (live log tableName)
  absent : ∀ tableName, tableName ∉ e.tablesRaw → live log tableName = []
  noAvl : e.avlIndexes = ∅
  indexes : ∀ index idx, e.sequentialIndexes.lookup index = some idx →
    ∃ table i si, e.tablesRaw.lookup index.table = some table ∧
      table.getAttributeIdx index.attributeName = .ok i ∧ idx = .int si ∧
      Mirrors table i (live log index.table) si

/-- There are no tables and no indexes. -/
theorem consistent_empty : Consistent [] {} where
  filled _ _ hl := nomatch hl
  absent _ _ := rfl
  noAvl := rfl
  indexes _ _ hl := nomatch hl

/-! ## `create_table` -/

/-- A new table has an index on its primary key, and both are empty. -/
theorem Consistent.createTable (h : Consistent log e) {primaryKey : Bytes} {names : List Bytes}
    (hints : ∀ type ∈ types, type = .int) (hcolumns : names.length ≤ 256)
    (hcreate : e.createTable tableName primaryKey types names = (.ok true, e')) :
    Consistent log e' := by
  unfold DBEngine.createTable at hcreate
  split_ifs at hcreate with hmem
  · cases hcreate
  · let table : HeapFile := { attributeNames := names, attributeTypes := types, primaryKey }
    simp only at hcreate
    have hnone : e.tablesRaw.lookup tableName = none := AList.lookup_eq_none.2 hmem
    have hself : (e.tablesRaw.emplace tableName table).lookup tableName = some table := by
      rw [KeyedMap.lookup_emplace_self, hnone, Option.getD_none]
    cases htype : table.getType primaryKey with
    | error ex =>
      simp only [table] at htype
      rw [htype] at hcreate
      cases hcreate
    | ok type =>
      obtain ⟨i, hidx, hmemtype⟩ := getAttributeIdx_of_getType htype
      obtain rfl := hints type (List.mem_of_getElem? hmemtype)
      simp only [table] at htype
      rw [htype] at hcreate
      cases hcreate
      refine ⟨fun name table1 hl => ?_, fun name hl => ?_, h.noAvl, fun index idx hl => ?_⟩
      · by_cases hname : name = tableName
        · subst hname
          cases hself.symm.trans hl
          rw [h.absent name hmem]
          exact ⟨hints, List.mem_of_getElem? hmemtype, hcolumns, rfl, ⟨[], .nil, rfl⟩, rfl⟩
        · exact h.filled name table1 ((KeyedMap.lookup_emplace_ne hname).symm.trans hl)
      · refine h.absent name fun hin => hl ?_
        have hne : name ≠ tableName := fun heq => hmem (heq ▸ hin)
        refine AList.lookup_isSome.1 ?_
        rw [KeyedMap.lookup_emplace_ne hne]
        exact AList.lookup_isSome.2 hin
      · -- an entry that was there before is one of another table
        have hother : ∀ index idx, e.sequentialIndexes.lookup index = some idx →
            index.table ≠ tableName := by
          rintro index idx hold rfl
          obtain ⟨table1, -, -, hl1, -⟩ := h.indexes index idx hold
          rw [hnone] at hl1
          cases hl1
        by_cases hindex : index = ⟨tableName, primaryKey⟩
        · subst hindex
          rw [KeyedMap.lookup_emplace_self] at hl
          cases hold : e.sequentialIndexes.lookup ⟨tableName, primaryKey⟩ with
          | some idx1 => exact absurd rfl (hother _ idx1 hold)
          | none =>
            rw [hold, Option.getD_none] at hl
            cases hl
            refine ⟨table, i, .createFile true, hself, hidx, rfl, ?_⟩
            rw [h.absent tableName hmem]
            exact mirrors_createFile true table i
        · have hold := (KeyedMap.lookup_emplace_ne hindex).symm.trans hl
          obtain ⟨table1, i1, si1, hl1, hidx1, hsi1, hm1⟩ := h.indexes index idx hold
          refine ⟨table1, i1, si1, ?_, hidx1, hsi1, hm1⟩
          rw [KeyedMap.lookup_emplace_ne (hother index idx hold)]
          exact hl1

/-! ## `add` -/

/-- The table has no sequential index on another column than its primary key. -/
def OnlyPrimary (e : DBEngine) (tableName : Bytes) : Prop :=
  ∀ table, e.tablesRaw.lookup tableName = some table →
    ∀ index ∈ e.sequentialIndexes, index.table = tableName → index.attributeName = table.primaryKey

/-- The key of the row does not go in front of an overflow record that the header of the primary-key
index points to. -/
def PlacedIn (e : DBEngine) (tableName : Bytes) (row : List Bytes) : Prop :=
  ∀ table, e.tablesRaw.lookup tableName = some table → KeyPlaced e tableName table row

omit [FloatType] in
/-- One insertion into an index that mirrors its column. -/
theorem Mirrors.add {table' : HeapFile} {si si' : SequentialIndex Int} {k : Int}
    {records : List Int} (h : Mirrors table i rows si)
    (htypes : table'.attributeTypes = table.attributeTypes)
    (hk : ({ fields := row } : Record).intAt i = .ok k) (hplace : ¬ si.HeaderMisplaced k)
    (hadd : Returns (si.add · k (table.pos rows.length)) (.ok records, si')) :
    Mirrors table' i (rows ++ [row]) si' := by
  obtain ⟨keys, hkeys, hholds⟩ := h
  have hentries : ∀ keys, entries table' keys = entries table keys := fun keys => by
    refine List.map_congr_left fun p _ => ?_
    rw [HeapFile.pos_of_types htypes]
  refine ⟨keys ++ [k], List.rel_append hkeys (.cons hk .nil), ?_⟩
  rw [hentries, entries_append hkeys.length_eq.symm]
  exact hholds.added hplace hadd

/-- An accepted row whose key goes to an index of integers. -/
theorem add_accepted {attr : Attribute} {si : SequentialIndex Int} {k pos : Int}
    {table' : HeapFile} {log : List (Int × Int)} (hadd : Returns (e.add · tableName row) (.ok true, e'))
    (hlookup : e.tablesRaw.lookup tableName = some table)
    (hkey : table.getKey { fields := row } = .ok (.int, attr)) (hk : stoi attr.value = .ok k)
    (hsi : e.sequentialIndexes.lookup ⟨tableName, attr.name⟩ = some (.int si))
    (hholds : si.Holds log) (hplace : ¬ si.HeaderMisplaced k)
    (hrow : table.add { fields := row } = (.ok pos, table')) :
    ∃ records si', Returns (si.add · k table.nextPos) (.ok records, si') ∧
      e' = (e.setSequential ⟨tableName, attr.name⟩ (.int si')).setTable tableName table' := by
  have hcall : ∀ {res : Except Exn (List Int)} {si' : SequentialIndex Int},
      Returns (si.add · k table.nextPos) (res, si') →
      addRow tableName { fields := row } (res.map fun rs => !rs.isEmpty,
        e.setSequential ⟨tableName, attr.name⟩ (.int si')) = (.ok true, e') := fun hret =>
    (((hret.map _).congr (add_eq hlookup hkey hk hsi)).unique hadd)
  have hok : ∀ {records : List Int} {si' : SequentialIndex Int},
      Returns (si.add · k table.nextPos) (.ok records, si') →
      e' = (e.setSequential ⟨tableName, attr.name⟩ (.int si')).setTable tableName table' := by
    intro records si' hret
    have hcalled := hcall hret
    have hreported : records.isEmpty = false := by
      obtain ⟨n, hn⟩ := hret.exists
      exact List.isEmpty_eq_false_iff.2 (SequentialIndex.records_ne_nil hn)
    have htable : (e.setSequential ⟨tableName, attr.name⟩ (.int si')).tableAt tableName =
        .ok table := tableAt_of_lookup hlookup
    simp only [Except.map, hreported, Bool.not_false, addRow, htable, hrow] at hcalled
    exact (Prod.mk.inj hcalled).2.symm
  cases hpk : si.pk with
  | false =>
    obtain ⟨records, si', hret, -⟩ := hholds.add hpk hplace table.nextPos
    exact ⟨records, si', hret, hok hret⟩
  | true =>
    rcases hholds.add_pk hpk hplace table.nextPos with ⟨-, ex, hret⟩ | ⟨-, records, si', hret, -⟩
    · cases hcall hret
    · exact ⟨records, si', hret, hok hret⟩

/-- A table with one index gets a row, and so does the index. -/
theorem Consistent.inserted (h : Consistent log e) {table' : HeapFile} {name : Bytes}
    {si si' : SequentialIndex Int} (hlookup : e.tablesRaw.lookup tableName = some table)
    (hidx : table'.getAttributeIdx name = .ok i)
    (hsi : e.sequentialIndexes.lookup ⟨tableName, name⟩ = some (.int si))
    (honly : ∀ index ∈ e.sequentialIndexes, index.table = tableName → index.attributeName = name)
    (hfilled : table'.Filled (live log tableName ++ [row]))
    (hm : Mirrors table' i (live log tableName ++ [row]) si') :
    Consistent (log ++ [(tableName, row)])
      ((e.setSequential ⟨tableName, name⟩ (.int si')).setTable tableName table') := by
  have hself : ((e.setSequential ⟨tableName, name⟩ (.int si')).setTable tableName
      table').tablesRaw.lookup tableName = some table' := lookup_setTable_self hlookup
  have hother : ∀ other, other ≠ tableName → ((e.setSequential ⟨tableName, name⟩
      (.int si')).setTable tableName table').tablesRaw.lookup other = e.tablesRaw.lookup other :=
    fun other hne => lookup_setTable_ne hne
  have hlive : ∀ other, other ≠ tableName →
      live (log ++ [(tableName, row)]) other = live log other := fun other hne => by
    rw [live_append, if_neg (Ne.symm hne), List.append_nil]
  have hliveSelf : live (log ++ [(tableName, row)]) tableName = live log tableName ++ [row] := by
    rw [live_append, if_pos rfl]
  refine ⟨fun other table2 hl => ?_, fun other hl => ?_, h.noAvl, fun index idx hl => ?_⟩
  · by_cases hne : other = tableName
    · subst hne
      cases hself.symm.trans hl
      rw [hliveSelf]
      exact hfilled
    · rw [hlive other hne]
      exact h.filled other table2 ((hother other hne).symm.trans hl)
  · have hne : other ≠ tableName := by
      rintro rfl
      exact hl (AList.lookup_isSome.1 (hself ▸ rfl))
    rw [hlive other hne]
    exact h.absent other fun hin => hl (AList.mem_replace.2 hin)
  · by_cases hindex : index = ⟨tableName, name⟩
    · subst hindex
      have hentry := (KeyedMap.lookup_replace_self (m := e.sequentialIndexes)
        (b := .int si') (by simp [hsi])).symm.trans hl
      cases hentry
      refine ⟨table', i, si', hself, hidx, rfl, ?_⟩
      rw [hliveSelf]
      exact hm
    · have hentry := (KeyedMap.lookup_replace_ne hindex).symm.trans hl
      obtain ⟨table2, i2, si2, hl2, hidx2, hsi2, hm2⟩ := h.indexes index idx hentry
      have hne : index.table ≠ tableName := fun heq => by
        -- the table has no other index
        have hcolumn := honly index (AList.lookup_isSome.1 (hentry ▸ rfl)) heq
        obtain ⟨indexTable, indexName⟩ := index
        exact hindex (congrArg₂ Index.mk heq hcolumn)
      refine ⟨table2, i2, si2, (hother _ hne).trans hl2, hidx2, hsi2, ?_⟩
      rw [hlive _ hne]
      exact hm2

/-- A row that is accepted is in the heap and in the table's only index. -/
theorem Consistent.add (h : Consistent log e)
    (hadd : Returns (e.add · tableName row) (.ok true, e')) (honly : e.OnlyPrimary tableName)
    (hplaced : e.PlacedIn tableName row) : Consistent (log ++ [(tableName, row)]) e' := by
  obtain ⟨fuel, hfuel⟩ := hadd.exists
  cases add_cases hfuel with
  | @done table table' type attr e1 pos lookup getKey addKey add =>
    obtain ⟨i, hidx, htype, hfield⟩ := HeapFile.getKey_ok getKey
    have hold := h.filled tableName table lookup
    obtain rfl := hold.ints type (List.mem_of_getElem? htype)
    have hname := HeapFile.getKey_name hold.columns getKey
    obtain ⟨si, -, k, -, hsi, hk, -⟩ := addKey_int addKey
    obtain ⟨table1, i1, si1, hl1, hidx1, heq, hm⟩ := h.indexes _ _ hsi
    cases lookup.symm.trans hl1
    cases heq
    rw [hname] at hidx1
    cases hidx.symm.trans hidx1
    have hrowkey : ({ fields := row } : Record).intAt i = .ok k := by
      rw [Record.intAt, HeapFile.vectorAt_eq_ok.2 hfield]
      exact hk
    have hplace := hplaced table lookup k si ⟨attr, getKey, hk⟩ (hname ▸ hsi)
    obtain ⟨keys, hholds⟩ := hm.holds
    obtain ⟨records, si', hret, he'⟩ := add_accepted hadd lookup getKey hk hsi hholds hplace add
    obtain ⟨hfilled, hnames, htypes⟩ := hold.add add
    have hend : table.nextPos = table.pos (live log tableName).length := by
      rw [hold.stores.nextPos, List.length_map]
    rw [hend] at hret
    rw [he']
    refine h.inserted lookup ?_ hsi (fun index hin heq => ?_) hfilled
      (hm.add htypes hrowkey hplace hret)
    · rw [HeapFile.getAttributeIdx, hnames, hname]
      exact hidx
    · rw [hname]
      exact honly table lookup index hin heq

/-! ## `create_index` -/

omit [FloatType] in
/-- An index without records stands for a table without rows. -/
theorem Mirrors.rows_eq_nil {si : SequentialIndex Int} (h : Mirrors table i rows si)
    (hfile : si.indexFile = []) : rows = [] := by
  obtain ⟨keys, hkeys, c, m, hwf, hm, hperm⟩ := h
  have hpairs : m.pairs = [] := by
    refine List.eq_nil_iff_forall_not_mem.2 fun p hp => ?_
    obtain ⟨r, hr, -⟩ := hm.stored_iff.2 ⟨p.2, hp⟩
    rw [hwf.linked.empty hfile] at hr
    cases hr
  rw [hpairs] at hperm
  have hentries := hperm.length_eq
  rw [entries, List.length_map, List.length_zipIdx, ← hkeys.length_eq] at hentries
  exact List.length_eq_zero_iff.1 hentries.symm

omit [FloatType] in
/-- An index that mirrors its column is not loaded again. -/
theorem Mirrors.bulkInsert_same {si : SequentialIndex Int} (h : Mirrors table i rows si)
    (sort : List (Int × Int) → List (Int × Int)) {pairs : List (Int × Int)}
    (hlen : pairs.length = rows.length) : (si.bulkInsert sort pairs).2 = si := by
  rw [SequentialIndex.bulkInsert]
  split_ifs with hnil hfile
  · rfl
  · rw [h.rows_eq_nil hfile] at hlen
    exact absurd (List.length_eq_zero_iff.1 hlen) hnil
  · rfl

/-- Pairs of the rows with their own positions. -/
theorem mirrors_of_paired {si : SequentialIndex Int} {pairs : List (Int × Int)}
    (hlen : pairs.length = rows.length) (hint : ∀ n (hn : n < rows.length),
      (table.rowAt n).intAt i = ({ fields := rows[n] } : Record).intAt i)
    (hpaired : Paired table i none pairs) (hholds : si.Holds pairs) : Mirrors table i rows si := by
  refine ⟨pairs.map (·.1), ?_, ?_⟩
  · refine List.forall₂_iff_get.2 ⟨by rw [List.length_map, hlen], fun n h1 h2 => ?_⟩
    rw [List.length_map] at h2
    have hkey := hpaired.key n h2
    rw [hint n h1] at hkey
    simpa using hkey
  · have hsame : entries table (pairs.map (·.1)) = pairs := by
      refine List.ext_getElem (by simp [entries]) fun n h1 h2 => ?_
      have hpos := hpaired.pos n h2
      rw [posGetter, Option.getD_none, Int.add_left_neg, Int.zero_add] at hpos
      simp only [entries, List.getElem_map, List.getElem_zipIdx, Nat.zero_add]
      refine Prod.ext rfl ?_
      rw [hpos, HeapFile.pos, Nat.cast_mul]
    rw [hsame]
    exact hholds

section
variable [Unspecified] [IntCast FloatType.Value]

/-- The positions that `create_index` gives to the rows are needed for a first index on a table with
rows only, and then they are right when no row has been read for an index before. -/
def PositionsFit (e : DBEngine) (tableName columnName : Bytes) : Prop :=
  ⟨tableName, columnName⟩ ∈ e.sequentialIndexes ∨ e.prevPos = none ∨
    ∀ table, e.tablesRaw.lookup tableName = some table → table.recordCount = 0

/-- A call of `create_index` that ends without an exception has found the table and the column. -/
theorem createIndex_found {kind : IndexType}
    (h : e.createIndex fuel tableName columnName kind = some (.ok (), e')) :
    ∃ table type, e.tablesRaw.lookup tableName = some table ∧
      table.getType columnName = .ok type := by
  simp only [DBEngine.createIndex, tableAt] at h
  cases hl : e.tablesRaw.lookup tableName with
  | none =>
    simp only [hl] at h
    cases h
  | some table =>
    cases htype : table.getType columnName with
    | error ex =>
      simp only [hl, htype] at h
      cases h
    | ok type => exact ⟨table, type, rfl, htype⟩

omit [IntCast FloatType.Value] in
/-- The index that `create_index` loads is the one that is there or a new one, and mirrors the column
then. -/
theorem Consistent.mirrors_bulkInsert (h : Consistent log e)
    (hl : e.tablesRaw.lookup tableName = some table)
    (hidx : table.getAttributeIdx columnName = .ok i)
    (hcolumn : table.attributeTypes[i]? = some .int) {pairs : List (Int × Int)}
    (hpaired : Paired table i e.prevPos pairs) (hfit : e.PositionsFit tableName columnName) :
    ∃ si : SequentialIndex Int,
      (e.sequentialIndexes.lookup ⟨tableName, columnName⟩).getD (.int (.createFile false)) =
          .int si ∧
        Mirrors table i (live log tableName) (si.bulkInsert (Unspecified.sort (·.1)) pairs).2 := by
  have hfilled := h.filled tableName table hl
  have hlen : pairs.length = (live log tableName).length := hpaired.length.trans hfilled.count
  cases hentry : e.sequentialIndexes.lookup ⟨tableName, columnName⟩ with
  | some idx =>
    obtain ⟨table1, i1, si, hl1, hidx1, rfl, hm⟩ := h.indexes _ idx hentry
    cases hl.symm.trans hl1
    cases hidx.symm.trans hidx1
    refine ⟨si, rfl, ?_⟩
    rw [hm.bulkInsert_same _ hlen]
    exact hm
  | none =>
    refine ⟨.createFile false, rfl, ?_⟩
    by_cases hnil : pairs = []
    · subst hnil
      have hrows : live log tableName = [] := List.length_eq_zero_iff.1 hlen.symm
      rw [hrows]
      exact mirrors_createFile false table i
    · have hcount : table.recordCount ≠ 0 := fun hzero =>
        hnil (List.length_eq_zero_iff.1 (hpaired.length.trans hzero))
      have hprev : e.prevPos = none := by
        rcases hfit with hin | hprev | hzero
        · exact absurd hin (AList.lookup_eq_none.1 hentry)
        · exact hprev
        · exact absurd (hzero table hl) hcount
      rw [hprev] at hpaired
      have hempty : (SequentialIndex.createFile false : SequentialIndex Int).indexFile = [] := rfl
      obtain ⟨res, si', hbulk, hholds⟩ := SequentialIndex.bulkInsert_holds hempty rfl hnil
        (Unspecified.sort_perm (·.1) pairs) (Unspecified.sort_sorted (·.1) pairs)
      rw [hbulk]
      exact mirrors_of_paired hlen (fun n hn => hfilled.intAt hcolumn hn) hpaired hholds

omit [Unspecified] [IntCast FloatType.Value] in
/-- An index is put in its place, and mirrors its column. -/
theorem Consistent.putIndex (h : Consistent log e)
    (hl : e.tablesRaw.lookup tableName = some table)
    (hidx : table.getAttributeIdx columnName = .ok i) {si : SequentialIndex Int}
    (hm : Mirrors table i (live log tableName) si) (htables : e'.tablesRaw = e.tablesRaw)
    (havl : e'.avlIndexes = ∅) (new : IndexContainer SequentialIndex)
    (hindexes : e'.sequentialIndexes = (e.sequentialIndexes.emplace ⟨tableName, columnName⟩ new).replace
      ⟨tableName, columnName⟩ (.int si)) : Consistent log e' where
  filled name table1 hl1 := h.filled name table1 (htables ▸ hl1)
  absent name hnot := h.absent name fun hin => hnot (htables ▸ hin)
  noAvl := havl
  indexes index1 idx1 hl1 := by
    rw [htables]
    rw [hindexes] at hl1
    by_cases hindex : index1 = ⟨tableName, columnName⟩
    · subst hindex
      have hentry := (KeyedMap.lookup_replace_self (by
        rw [KeyedMap.lookup_emplace_self]
        exact Option.some_ne_none _)).symm.trans hl1
      cases hentry
      exact ⟨table, i, _, hl, hidx, rfl, hm⟩
    · have hentry := (KeyedMap.lookup_emplace_ne hindex).symm.trans
        ((KeyedMap.lookup_replace_ne hindex).symm.trans hl1)
      exact h.indexes index1 idx1 hentry

/-- A sequential index that is created mirrors its column. -/
theorem Consistent.createIndex (h : Consistent log e)
    (hcreate : Returns (e.createIndex · tableName columnName .sequential) (.ok (), e'))
    (hfit : e.PositionsFit tableName columnName) : Consistent log e' := by
  obtain ⟨fuel, hfuel⟩ := hcreate.exists
  obtain ⟨table, type, hl, htype⟩ := createIndex_found hfuel
  have hfilled := h.filled tableName table hl
  obtain ⟨i, hidx, hcolumn⟩ := getAttributeIdx_of_getType htype
  obtain rfl := hfilled.ints type (List.mem_of_getElem? hcolumn)
  obtain ⟨pairs, e1, hpaired, hsame, htables, -, hcall⟩ :=
    createIndex_of_readable hl htype hidx hfilled.readable .sequential
  have htables : e1.tablesRaw = e.tablesRaw := by
    rw [htables, hfilled.load, DBEngine.setTable, KeyedMap.replace_eq_self hl]
  obtain ⟨si, hsi, hm⟩ := h.mirrors_bulkInsert hl hidx hcolumn hpaired hfit
  rw [← hsame.2.2] at hsi
  have havl : e1.avlIndexes = ∅ := hsame.1.trans h.noAvl
  have hno : (⟨tableName, columnName⟩ : Index) ∉ e1.avlIndexes := by
    rw [havl]
    exact AList.notMem_empty _
  have hbulk := bulkIndex_sequential_eq hno hsi pairs fuel
  rw [← (hcall fuel).1] at hbulk
  cases hfuel.symm.trans hbulk
  exact h.putIndex hl hidx hm htables havl (.int (.createFile false)) (by rw [hsame.2.2])

/-! ## Runs -/

/-- A call on tables of `INT` columns. An index is a sequential one. -/
inductive Call
  | createTable (tableName primaryKey : Bytes) (types : List FieldType) (names : List Bytes)
  | createIndex (tableName columnName : Bytes)
  | add (tableName : Bytes) (row : List Bytes)
  | remove (tableName : Bytes) (key : Attribute)

/-- A call that succeeds, with the rows before and after it. No call of `remove` does, so it does
not matter which rows there are then. -/
inductive Succeeds (log : List (Bytes × List Bytes)) (e : DBEngine) :
    Call → List (Bytes × List Bytes) → DBEngine → Prop
  | createTable {tableName primaryKey : Bytes} {types : List FieldType} {names : List Bytes}
      {e' : DBEngine} (ints : ∀ type ∈ types, type = .int)
      (createTable : e.createTable tableName primaryKey types names = (.ok true, e')) :
      Succeeds log e (.createTable tableName primaryKey types names) log e'
  | createIndex {tableName columnName : Bytes} {e' : DBEngine}
      (createIndex : Returns (e.createIndex · tableName columnName .sequential) (.ok (), e')) :
      Succeeds log e (.createIndex tableName columnName) log e'
  | add {tableName : Bytes} {row : List Bytes} {e' : DBEngine}
      (add : Returns (e.add · tableName row) (.ok true, e')) :
      Succeeds log e (.add tableName row) (log ++ [(tableName, row)]) e'
  | remove {tableName : Bytes} {key : Attribute} {removed : Bool} {e' : DBEngine}
      (remove : Returns (e.remove · tableName key) (.ok removed, e'))
      (log' : List (Bytes × List Bytes)) : Succeeds log e (.remove tableName key) log' e'

/-- Sequences of successful calls from the start, each one allowed in its state. -/
inductive CallRun (allowed : DBEngine → Call → Prop) : List (Bytes × List Bytes) → DBEngine → Prop
  | start : CallRun allowed [] {}
  | step {log log' : List (Bytes × List Bytes)} {e e' : DBEngine} (call : Call)
      (run : CallRun allowed log e) (ok : allowed e call) (step : Succeeds log e call log' e') :
      CallRun allowed log' e'

/-- The calls that keep the indexes. -/
def Keeps (e : DBEngine) : Call → Prop
  | .createTable _ _ _ names => names.length ≤ 256
  | .createIndex tableName columnName => e.PositionsFit tableName columnName
  | .add tableName row => e.OnlyPrimary tableName ∧ e.PlacedIn tableName row
  | .remove _ _ => True

variable {log' : List (Bytes × List Bytes)} {call : Call}

/-- What one call keeps. -/
theorem Consistent.step (h : Consistent log e) (hnonneg : e.Nonneg)
    (hstep : Succeeds log e call log' e') (hkeeps : e.Keeps call) : Consistent log' e' := by
  cases hstep with
  | createTable ints createTable => exact h.createTable ints hkeeps createTable
  | createIndex createIndex => exact h.createIndex createIndex hkeeps
  | add add => exact h.add add hkeeps.1 hkeeps.2
  | remove remove =>
    obtain ⟨fuel, hfuel⟩ := remove.exists
    exact absurd hfuel (hnonneg.remove_ne_ok (fun table hl => (h.filled _ table hl).int) _ _)

/-- A step that ends keeps a run going. -/
theorem Built.step (h : Built log e) (hc : Consistent log e)
    (hstep : Succeeds log e call log' e') : Built log' e' := by
  cases hstep with
  | @createTable tableName primaryKey types names _ _ createTable =>
    have hbuilt := h.createTable tableName primaryKey types names
    rwa [createTable] at hbuilt
  | createIndex createIndex =>
    obtain ⟨fuel, hfuel⟩ := createIndex.exists
    exact h.createIndex hfuel
  | add add =>
    obtain ⟨fuel, hfuel⟩ := add.exists
    exact h.added hfuel
  | remove remove =>
    obtain ⟨fuel, hfuel⟩ := remove.exists
    exact absurd hfuel (h.nonneg.remove_ne_ok (fun table hl => (hc.filled _ table hl).int) _ _)

/-- After a run of calls that keep the indexes, the tables hold their rows, and every sequential
index mirrors its column. -/
theorem CallRun.consistent (h : CallRun Keeps log e) : Built log e ∧ Consistent log e := by
  induction h with
  | start => exact ⟨.start, consistent_empty⟩
  | step _ _ hkeeps hstep ih =>
    exact ⟨ih.1.step ih.2 hstep, ih.2.step ih.1.nonneg hstep hkeeps⟩

/-- In every state of such a run, an entry of the map of sequential indexes is for a column of a
table that holds its rows, and has the number in the column and the position of every row, and
nothing else. -/
theorem indexes_of_run (h : CallRun Keeps log e) {index : Index}
    {idx : IndexContainer SequentialIndex} (hlookup : e.sequentialIndexes.lookup index = some idx) :
    ∃ table i si, e.tablesRaw.lookup index.table = some table ∧
      table.Filled (live log index.table) ∧
      table.getAttributeIdx index.attributeName = .ok i ∧ idx = .int si ∧
      Mirrors table i (live log index.table) si := by
  obtain ⟨-, hc⟩ := h.consistent
  obtain ⟨table, i, si, hl, hidx, hsi, hm⟩ := hc.indexes index idx hlookup
  exact ⟨table, i, si, hl, hc.filled _ table hl, hidx, hsi, hm⟩

end

end DBEngine

end

section
attribute [local instance] noFloats firstChoice noFloatsCast

/-- A table with a row, and then an index on its other column. -/
theorem indexes_of_run_sample : ∃ log e idx, DBEngine.CallRun DBEngine.Keeps log e ∧
    DBEngine.live log (ascii "t") = [[ascii "1", ascii "5"]] ∧
    e.sequentialIndexes.lookup ⟨ascii "t", ascii "x"⟩ = some idx ∧
    ∃ table i si, e.tablesRaw.lookup (ascii "t") = some table ∧
      table.Filled (DBEngine.live log (ascii "t")) ∧
      table.getAttributeIdx (ascii "x") = .ok i ∧ idx = .int si ∧
      DBEngine.Mirrors table i (DBEngine.live log (ascii "t")) si := by
  have h1 : DBEngine.CallRun DBEngine.Keeps _ _ := DBEngine.CallRun.start.step
    (.createTable (ascii "t") (ascii "id") [.int, .int] [ascii "id", ascii "x"])
    (by rw [DBEngine.Keeps]; decide) (.createTable (by simp) rfl)
  have h2 : DBEngine.CallRun DBEngine.Keeps _ _ := h1.step
    (.add (ascii "t") [ascii "1", ascii "5"])
    ⟨fun table hl index hin _ => by
      cases hl
      obtain rfl := List.mem_singleton.1 hin
      rfl,
    fun table hl k si _ hsi hmisplaced => by
      cases hl
      cases hsi
      cases hmisplaced.1⟩
    (.add (.of_add 5 fun _ => rfl))
  have h3 : DBEngine.CallRun DBEngine.Keeps _ _ := h2.step
    (.createIndex (ascii "t") (ascii "x")) (.inr (.inl rfl)) (.createIndex (.of_eq fun _ => rfl))
  exact ⟨_, _, _, h3, rfl, rfl, DBEngine.indexes_of_run h3
    (show AList.lookup (⟨ascii "t", ascii "x"⟩ : Index) _ = some _ from rfl)⟩

/-- An index on another column than the primary key, and then a row: the index is empty. -/
theorem not_mirrors : ∃ log e idx, DBEngine.CallRun (fun _ _ => True) log e ∧
    DBEngine.live log (ascii "t") = [[ascii "1", ascii "5"]] ∧
    e.sequentialIndexes.lookup ⟨ascii "t", ascii "x"⟩ = some idx ∧
    ∀ table i si, idx = .int si →
      ¬ DBEngine.Mirrors table i (DBEngine.live log (ascii "t")) si := by
  have h1 : DBEngine.CallRun (fun _ _ => True) _ _ := DBEngine.CallRun.start.step
    (.createTable (ascii "t") (ascii "id") [.int, .int] [ascii "id", ascii "x"]) trivial
    (.createTable (by simp) rfl)
  have h2 : DBEngine.CallRun (fun _ _ => True) _ _ := h1.step
    (.createIndex (ascii "t") (ascii "x")) trivial (.createIndex (.of_eq fun _ => rfl))
  have h3 : DBEngine.CallRun (fun _ _ => True) _ _ := h2.step
    (.add (ascii "t") [ascii "1", ascii "5"]) trivial (.add (.of_add 5 fun _ => rfl))
  refine ⟨_, _, _, h3, rfl, rfl, fun table i si hsi hm => ?_⟩
  cases hsi
  cases hm.rows_eq_nil rfl

end

end DbEngine

end Rdbms
