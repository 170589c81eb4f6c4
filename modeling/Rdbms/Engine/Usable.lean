import Rdbms.Engine.Positions
import Rdbms.Heap.Filter
import Rdbms.Sequential.Run

/-!
# Using a table

A new table with an `INT` primary key takes each key once, and a lookup of an accepted key finds its
row (`usable_of_run`), provided that no other index is on an attribute of the same name, since
`search` looks at the name of the attribute only, and that no key goes in front of an overflow
record that the header of the index points to. `key_cast_and_execute` does nothing for a `VARCHAR`
key, and such a table takes no row.
-/

namespace Rdbms

namespace SequentialIndex
variable {κ : Type} [KeyType κ] {si si' : SequentialIndex κ}

/-- A key that has been inserted is reported with its position. -/
theorem records_ne_nil {fuel : Nat} {k : κ} {v : Int} {records : List Int}
    (h : si.add fuel k v = some (.ok records, si')) : records ≠ [] := by
  unfold add at h
  obtain ⟨bsr, -, h⟩ := Option.bind_eq_some_iff.1 h
  obtain ⟨⟨res, si1⟩, -, h⟩ := Option.bind_eq_some_iff.1 h
  have hne : (if bsr.location = .emptyFile then [v, v] else [v]) ≠ [] := by split_ifs <;> simp
  generalize (if bsr.location = .emptyFile then [v, v] else [v]) = reported at h hne
  cases res with
  | error ex => cases h
  | ok u =>
    rw [addEnd] at h
    split_ifs at h
    · obtain ⟨si2, -, heq⟩ := Option.map_eq_some_iff.1 h
      cases heq
      exact hne
    · cases h
      exact hne

end SequentialIndex

namespace DbEngine

section
variable [FloatType] {e e0 e' : DBEngine} {tableName : Bytes} {table table0 table' : HeapFile}
  {row : List Bytes} {k : Int} {si si' : SequentialIndex Int} {accepted : List (List Bytes)}
  {keys : List Int} {n : Nat}

/-! ## Columns -/

namespace HeapFile

omit [FloatType] in
/-- Selecting every column changes nothing. -/
theorem filter_all (hnodup : table.attributeNames.Nodup) (hle : table.attributeNames.length ≤ 256)
    {records : List Record}
    (hfields : ∀ record ∈ records, record.fields.length ≤ table.attributeNames.length) :
    table.filter records table.attributeNames = .ok records := by
  have hmap : table.attributeNames.map table.attributeNames.idxOf =
      List.range table.attributeNames.length := by
    refine List.ext_getElem (by simp) fun j h1 h2 => ?_
    rw [List.getElem_map, List.getElem_range]
    exact hnodup.idxOf_getElem j (by simpa using h1)
  have hnames : ∀ name ∈ table.attributeNames, name ∈ table.attributeNames.take 256 := by
    rw [List.take_of_length_le hle]
    exact fun name hname => hname
  rw [filter_eq_project hnames (hmap ▸ List.pairwise_le_range)]
  refine congrArg Except.ok ((List.map_congr_left fun record hrecord => ?_).trans (List.map_id records))
  rw [project, hmap, keep_of_all fun i hi =>
    decide_eq_true (List.mem_range.2 (hi.trans_le (hfields record hrecord)))]
  rfl

omit [FloatType] in
/-- The key of a row depends on the schema only. -/
theorem getKey_congr (hnames : table.attributeNames = table0.attributeNames)
    (htypes : table.attributeTypes = table0.attributeTypes)
    (hkey : table.primaryKey = table0.primaryKey) (record : Record) :
    table.getKey record = table0.getKey record := by
  simp only [getKey, getKeyIdx, getAttributeIdx, hnames, htypes, hkey]

omit [FloatType] in
/-- The key of a row is the attribute of that name. -/
theorem getKey_name (hle : table.attributeNames.length ≤ 256) {record : Record} {type : FieldType}
    {attr : Attribute} (h : table.getKey record = .ok (type, attr)) :
    attr.name = table.primaryKey := by
  unfold getKey getKeyIdx getAttributeIdx at h
  cases hfind : table.attributeNames.findIdx? (· = table.primaryKey) with
  | none =>
    rw [hfind] at h
    cases h
  | some i =>
    obtain ⟨hi, hname, -⟩ := List.findIdx?_eq_some_iff_getElem.1 hfind
    have hmod : i % 256 = i := Nat.mod_eq_of_lt (hi.trans_le hle)
    have hvector : vectorAt table.attributeNames i = .ok table.attributeNames[i] :=
      vectorAt_eq_ok.2 (List.getElem?_eq_getElem hi)
    simp only [hfind, hmod, hvector, bind, Except.bind, pure, Except.pure] at h
    split at h
    · cases h
    · split at h
      · cases h
      · cases h
        exact of_decide_eq_true hname

end HeapFile

namespace DBEngine

/-! ## One call -/

/-- The primary key of a row. -/
def RowKey (table : HeapFile) (row : List Bytes) (k : Int) : Prop :=
  ∃ attr, table.getKey { fields := row } = .ok (.int, attr) ∧ stoi attr.value = .ok k

omit [FloatType] in
/-- A row has one key. -/
theorem RowKey.unique {k' : Int} (h : RowKey table row k) (h' : RowKey table row k') : k = k' := by
  obtain ⟨attr, hattr, hk⟩ := h
  obtain ⟨attr', hattr', hk'⟩ := h'
  cases hattr.symm.trans hattr'
  cases hk.symm.trans hk'
  rfl

/-- A row that can be written has a key. -/
theorem exists_rowKey (hkey : table.getType table.primaryKey = .ok .int)
    (hrow : rowCodec.Accepts table.attributeTypes row) : ∃ k, RowKey table row k := by
  obtain ⟨i, name, htype, hiff⟩ := HeapFile.getKey_of_int hkey
  obtain ⟨field, bytes, hfield, hencode⟩ := hrow.getElem? htype
  have hencode : (stoi field).map _ = .ok bytes := hencode
  cases hk : stoi field with
  | error ex =>
    rw [hk] at hencode
    cases hencode
  | ok k => exact ⟨k, ⟨name, field⟩, (hiff _ _ _).2 ⟨rfl, rfl, hfield⟩, hk⟩

/-- `add` when the key goes to an index of integers. -/
theorem add_eq {attr : Attribute} (hlookup : e.tablesRaw.lookup tableName = some table)
    (hkey : table.getKey { fields := row } = .ok (.int, attr)) (hk : stoi attr.value = .ok k)
    (hsi : e.sequentialIndexes.lookup ⟨tableName, attr.name⟩ = some (.int si)) (fuel : Nat) :
    e.add fuel tableName row = (si.add fuel k table.nextPos).map fun (res, si') =>
      addRow tableName { fields := row } (res.map fun rs => !rs.isEmpty,
        e.setSequential ⟨tableName, attr.name⟩ (.int si')) := by
  simp only [add, tableAt_of_lookup hlookup, hkey, addKey, hsi, keyCastAndExecute_int hk,
    IndexContainer.add_int, Option.map_map]
  rfl

/-- The heap positions of the keys of the rows of a table. -/
def entries (table : HeapFile) (keys : List Int) : List (Int × Int) :=
  keys.zipIdx.map fun p => (p.1, table.pos p.2)

/-- A table that can be used: the rows are in the heap file, the primary-key index holds their keys
with their positions, and there is no other index on an attribute of that name. -/
structure Usable [Unspecified] (table0 : HeapFile) (tableName : Bytes) (e : DBEngine)
    (accepted : List (List Bytes)) (keys : List Int) (table : HeapFile)
    (si : SequentialIndex Int) : Prop where
  lookup : e.tablesRaw.lookup tableName = some table
  names : table.attributeNames = table0.attributeNames
  types : table.attributeTypes = table0.attributeTypes
  primaryKey : table.primaryKey = table0.primaryKey
  closed : table.leftOpen = none
  stores : table.Stores (accepted.map fun row => { fields := row })
  rowKeys : List.Forall₂ (RowKey table0) accepted keys
  index : e.sequentialIndexes.lookup ⟨tableName, table0.primaryKey⟩ = some (.int si)
  pk : si.pk = true
  holds : si.Holds (entries table keys)
  nodup : keys.Nodup
  first : (Unspecified.order e.sequentialIndexes.keys).find?
    (·.attributeName = table0.primaryKey) = some ⟨tableName, table0.primaryKey⟩

omit [FloatType] in
/-- The entry of a row more. -/
theorem entries_append (hlen : keys.length = n) :
    entries table (keys ++ [k]) = entries table keys ++ [(k, table.pos n)] := by
  simp [entries, List.zipIdx_append, hlen]

omit [FloatType] in
/-- The keys of the entries. -/
theorem entries_keys : (entries table keys).map (·.1) = keys := by
  rw [entries, List.map_map]
  exact List.zipIdx_map_fst 0 keys

omit [FloatType] in
/-- The entries have these keys and no others. -/
theorem mem_keys_entries : (∃ p ∈ entries table keys, p.1 = k) ↔ k ∈ keys := by
  have hkeys : (entries table keys).map (·.1) = keys := entries_keys
  rw [← List.mem_map, hkeys]

omit [FloatType] in
/-- A key that occurs once has the position of its row. -/
theorem entries_filter (hnodup : keys.Nodup) {j : Nat} (hj : j < keys.length) :
    ((entries table keys).filter (·.1 = keys[j])).map (·.2) = [table.pos j] := by
  have hpairs : (entries table keys).filter (·.1 = keys[j]) = [(keys[j], table.pos j)] := by
    refine List.perm_singleton.1 ((List.perm_ext_iff_of_nodup ?_ (List.nodup_singleton _)).2 ?_)
    · refine List.Nodup.filter _ (List.Nodup.of_map (·.1) ?_)
      rw [entries_keys]
      exact hnodup
    · rintro ⟨k, p⟩
      simp only [entries, List.mem_filter, List.mem_map, decide_eq_true_eq, List.mem_singleton]
      constructor
      · rintro ⟨⟨⟨k', i⟩, hmem, heq⟩, rfl⟩
        obtain ⟨hi, hk⟩ := List.getElem?_eq_some_iff.1 (List.mem_zipIdx_iff_getElem?.1 hmem)
        cases heq
        rw [(hnodup.getElem_inj_iff).1 hk]
      · rintro ⟨rfl, rfl⟩
        refine ⟨⟨(keys[j], j), List.mem_zipIdx_iff_getElem?.2 ?_, rfl⟩, rfl⟩
        exact List.getElem?_eq_getElem hj
  rw [hpairs]
  rfl

variable [Unspecified]

/-- An index in the place of the primary-key index. -/
theorem Usable.setSequential (h : Usable table0 tableName e accepted keys table si)
    (si' : SequentialIndex Int) :
    (e.setSequential ⟨tableName, table0.primaryKey⟩ (.int si')).sequentialIndexes.lookup
        ⟨tableName, table0.primaryKey⟩ = some (.int si') ∧
      (e.setSequential ⟨tableName, table0.primaryKey⟩ (.int si')).sequentialIndexes.keys =
        e.sequentialIndexes.keys :=
  ⟨KeyedMap.lookup_replace_self (by simp [h.index]), AList.keys_replace ..⟩

/-- A call of `add` with a row that can be written, whose key does not go in front of an overflow
record that the header points to. -/
theorem Usable.add (h : Usable table0 tableName e accepted keys table si)
    (hle : table0.attributeNames.length ≤ 256)
    (hsize : (table0.attributeTypes.map FieldType.size).sum ≤ 255)
    (hrow : rowCodec.Accepts table0.attributeTypes row) (hk : RowKey table0 row k)
    (hplace : ¬ si.HeaderMisplaced k) :
    (k ∈ keys ∧ ∃ ex e', Returns (e.add · tableName row) (.error ex, e') ∧
        Usable table0 tableName e' accepted keys table si) ∨
      k ∉ keys ∧ ∃ e' table' si', Returns (e.add · tableName row) (.ok true, e') ∧
        Usable table0 tableName e' (accepted ++ [row]) (keys ++ [k]) table' si' := by
  have ⟨attr, hattr, hstoi⟩ := hk
  have hname := HeapFile.getKey_name hle hattr
  have hattr' := (HeapFile.getKey_congr h.names h.types h.primaryKey { fields := row }).trans hattr
  have hindex := h.index
  rw [← hname] at hindex
  have hadd := add_eq h.lookup hattr' hstoi hindex
  have hlen : keys.length = accepted.length := h.rowKeys.length_eq.symm
  rcases h.holds.add_pk h.pk hplace table.nextPos with
    ⟨hin, ex, hret⟩ | ⟨hnew, records, si', hret, hpk, hholds⟩
  · obtain ⟨hindex', hkeys⟩ := h.setSequential si
    rw [← hname] at hindex' hkeys
    refine .inl ⟨mem_keys_entries.1 hin, ex, _, (hret.map _).congr hadd, ?_⟩
    exact { h with index := hname ▸ hindex', first := hkeys ▸ h.first }
  · obtain ⟨buffer, henc⟩ := hrow.encodes
    have hwrite : ({ fields := row } : Record).write table.attributeTypes = .ok buffer := by
      rw [h.types]
      exact Record.write_eq_ok.2 ⟨henc, Nat.lt_succ_of_le hsize⟩
    let table' : HeapFile :=
      { table with data := table.data ++ buffer, recordCount := table.recordCount + 1 }
    let e1 := e.setSequential ⟨tableName, attr.name⟩ (.int si')
    have hreported : records.isEmpty = false := by
      obtain ⟨fuel, hfuel⟩ := hret.exists
      exact List.isEmpty_eq_false_iff.2 (SequentialIndex.records_ne_nil hfuel)
    have haddRow : addRow tableName { fields := row }
        ((Except.ok records).map (fun rs => !rs.isEmpty), e1) =
          (.ok true, e1.setTable tableName table') := by
      have htable : e1.tableAt tableName = .ok table := tableAt_of_lookup h.lookup
      simp only [Except.map, hreported, Bool.not_false, addRow, htable,
        HeapFile.add_of_closed h.closed hwrite]
      rfl
    obtain ⟨hindex', hkeys⟩ := h.setSequential si'
    rw [← hname] at hkeys
    have hend : table.nextPos = table.pos keys.length := by
      rw [h.stores.nextPos, List.length_map, hlen]
    have hout : Returns (e.add · tableName row) (addRow tableName { fields := row }
      ((Except.ok records).map (fun rs => !rs.isEmpty), e1)) := (hret.map _).congr hadd
    rw [haddRow] at hout
    refine .inr ⟨fun hin => ?_, _, table', si', hout, ?_⟩
    · obtain ⟨p, hp, hpk⟩ := mem_keys_entries.2 hin
      exact hnew p hp hpk
    · exact {
        lookup := lookup_setTable_self h.lookup
        names := h.names
        types := h.types
        primaryKey := h.primaryKey
        closed := h.closed
        stores := by
          rw [List.map_append]
          exact h.stores.append hwrite _
        rowKeys := List.rel_append h.rowKeys (.cons hk .nil)
        index := hname ▸ hindex'
        pk := hpk
        holds := by
          rw [hend] at hholds
          rw [entries_append rfl]
          exact hholds
        nodup := by
          refine List.Nodup.append h.nodup (List.nodup_singleton k) fun x hx hxk => ?_
          rw [List.mem_singleton.1 hxk] at hx
          obtain ⟨p, hp, hpk⟩ := mem_keys_entries.2 hx
          exact hnew p hp hpk
        first := hkeys ▸ h.first }

/-- `search` gets to the primary-key index of the table. -/
theorem Usable.searchIndex (h : Usable table0 tableName e accepted keys table si)
    (fuel : Nat) (k : Int) :
    e.searchIndex fuel table0.primaryKey .int k = (si.search fuel k).map .ok := by
  rw [DBEngine.searchIndex, h.first, Option.bind_some, h.index]
  simp only [IndexContainer.search, IndexContainer.call, Alternative.int, Option.map_map]
  rfl

/-- A lookup of the key of an accepted row. -/
theorem Usable.search (h : Usable table0 tableName e accepted keys table si)
    (hkey : table0.getType table0.primaryKey = .ok .int)
    (hnodup : table0.attributeNames.Nodup) (hle : table0.attributeNames.length ≤ 256)
    (hcolumns : table0.attributeTypes.length ≤ table0.attributeNames.length)
    (hrow : row ∈ accepted) (hk : RowKey table0 row k) {value : Bytes}
    (hvalue : stoi value = .ok k) :
    Returns (e.search · tableName ⟨table0.primaryKey, value⟩ (fun _ => true) table0.attributeNames)
      (.ok [({ fields := row } : Record).norm table0.attributeTypes], e) := by
  obtain ⟨j, hj, rfl⟩ := List.mem_iff_getElem.1 hrow
  have hj' : j < keys.length := h.rowKeys.length_eq ▸ hj
  obtain rfl : k = keys[j] := hk.unique (h.rowKeys.get hj hj')
  let records : List Record := accepted.map fun row => { fields := row }
  have hjr : j < records.length := by rwa [List.length_map]
  let found : Record := ({ fields := accepted[j] } : Record).norm table0.attributeTypes
  have hread : table.read (table.pos j) = (found, table) := by
    rw [h.stores.read h.closed hjr, h.types, List.getElem_map]
  have hfields : ∀ record ∈ [found], record.fields.length ≤ table.attributeNames.length := by
    intro record hrecord
    obtain rfl := List.mem_singleton.1 hrecord
    rw [h.names]
    show (List.zipWith FieldType.norm table0.attributeTypes accepted[j]).length ≤ _
    rw [List.length_zipWith]
    exact (Nat.min_le_left _ _).trans hcolumns
  have hfilter := table.filter_all (h.names ▸ hnodup) (h.names ▸ hle) hfields
  rw [h.names] at hfilter
  have hanswer : e.answer tableName table [table.pos j] (fun _ => true) table0.attributeNames =
      (.ok [found], e) := by
    have hsame : e.setTable tableName table = e := by
      rw [setTable, KeyedMap.replace_eq_self h.lookup]
    simp only [answer, readRows, hread, if_true, hfilter, hsame]
  have htype : table.getType table0.primaryKey = .ok .int := by
    rw [← hkey]
    simp only [HeapFile.getType, HeapFile.getAttributeIdx, h.names, h.types]
  obtain ⟨res, hsearch, hperm⟩ := h.holds.search keys[j]
  rw [entries_filter h.nodup hj'] at hperm
  obtain rfl := List.perm_singleton.1 hperm
  refine (hsearch.map fun positions => e.answer tableName table positions (fun _ => true)
    table0.attributeNames).congr (fun fuel => ?_) |> hanswer.subst
  simp only [DBEngine.search, tableAt_of_lookup h.lookup, htype, bind, Except.bind,
    keyCastAndExecute_int hvalue, h.searchIndex, Option.map_map]
  rfl

/-! ## Runs -/

/-- A call of `create_table` after which the table can be used: an `INT` primary key, a name of its
own for each column, no index with entries in the place of the primary-key index, and no index on an
attribute of the name of the primary key that comes before it in `m_sequential_indexes`. -/
structure Suitable (e e0 : DBEngine) (tableName : Bytes) (table0 : HeapFile) : Prop where
  int : table0.getType table0.primaryKey = .ok .int
  nodup : table0.attributeNames.Nodup
  le : table0.attributeNames.length ≤ 256
  columns : table0.attributeTypes.length ≤ table0.attributeNames.length
  index : ∀ idx, e.sequentialIndexes.lookup ⟨tableName, table0.primaryKey⟩ = some idx →
    ∃ si, idx = .int si ∧ si.pk = true ∧ si.Holds []
  first : (Unspecified.order e0.sequentialIndexes.keys).find?
    (·.attributeName = table0.primaryKey) = some ⟨tableName, table0.primaryKey⟩

/-- The key of the row does not go in front of an overflow record that the header of the primary-key
index points to. -/
def KeyPlaced (e : DBEngine) (tableName : Bytes) (table0 : HeapFile) (row : List Bytes) : Prop :=
  ∀ k si, RowKey table0 row k →
    e.sequentialIndexes.lookup ⟨tableName, table0.primaryKey⟩ = some (.int si) →
    ¬ si.HeaderMisplaced k

/-- A run of `add` calls on a table, with rows that can be written: the accepted ones. -/
inductive UseRun (tableName : Bytes) (table0 : HeapFile) (e0 : DBEngine) :
    List (List Bytes) → DBEngine → Prop
  | start : UseRun tableName table0 e0 [] e0
  | accepted {accepted : List (List Bytes)} {e e' : DBEngine} {row : List Bytes}
      (run : UseRun tableName table0 e0 accepted e)
      (writable : rowCodec.Accepts table0.attributeTypes row)
      (placed : KeyPlaced e tableName table0 row)
      (add : Returns (e.add · tableName row) (.ok true, e')) :
      UseRun tableName table0 e0 (accepted ++ [row]) e'
  | rejected {accepted : List (List Bytes)} {e e' : DBEngine} {row : List Bytes} {ex : Exn}
      (run : UseRun tableName table0 e0 accepted e)
      (writable : rowCodec.Accepts table0.attributeTypes row)
      (placed : KeyPlaced e tableName table0 row)
      (add : Returns (e.add · tableName row) (.error ex, e')) :
      UseRun tableName table0 e0 accepted e'

/-- The table that `create_table` makes. -/
theorem Suitable.usable {names : List Bytes} {types : List FieldType} {primaryKey : Bytes}
    (hs : Suitable e e0 tableName (.create names types primaryKey))
    (hcreate : e.createTable tableName primaryKey types names = (.ok true, e0)) :
    ∃ si, Usable (.create names types primaryKey) tableName e0 [] []
      (.create names types primaryKey) si := by
  have hint : ({ attributeNames := names, attributeTypes := types, primaryKey } :
    HeapFile).getType primaryKey = .ok .int := hs.int
  unfold createTable at hcreate
  split_ifs at hcreate with hmem
  · cases hcreate
  · simp only [hint] at hcreate
    obtain rfl := (Prod.mk.inj hcreate).2
    have hindex : ∃ si : SequentialIndex Int, (e.sequentialIndexes.emplace ⟨tableName, primaryKey⟩
        (.int (.createFile true))).lookup ⟨tableName, primaryKey⟩ = some (.int si) ∧
        si.pk = true ∧ si.Holds [] := by
      rw [KeyedMap.lookup_emplace_self]
      cases hstale : e.sequentialIndexes.lookup ⟨tableName, primaryKey⟩ with
      | none =>
        exact ⟨_, rfl, rfl, [], Multimap.empty, SequentialIndex.wellFormed_createFile true, .nil, .nil⟩
      | some idx =>
        obtain ⟨si, rfl, hpk, hholds⟩ := hs.index idx hstale
        exact ⟨si, rfl, hpk, hholds⟩
    obtain ⟨si, hsi, hpk, hholds⟩ := hindex
    refine ⟨si, ?_, rfl, rfl, rfl, rfl, ⟨[], .nil, rfl⟩, .nil, hsi, hpk, hholds, .nil, hs.first⟩
    exact KeyedMap.lookup_emplace_self.trans (by rw [AList.lookup_eq_none.2 hmem]; rfl)

/-- What holds at every point of a run. -/
theorem UseRun.usable (h0 : Usable table0 tableName e0 [] [] table0 si)
    (hkey : table0.getType table0.primaryKey = .ok .int)
    (hle : table0.attributeNames.length ≤ 256)
    (hsize : (table0.attributeTypes.map FieldType.size).sum ≤ 255)
    (hrun : UseRun tableName table0 e0 accepted e) :
    ∃ keys table si, Usable table0 tableName e accepted keys table si := by
  induction hrun with
  | start => exact ⟨[], table0, si, h0⟩
  | accepted run writable placed add ih =>
    obtain ⟨keys, table, si, h⟩ := ih
    obtain ⟨k, hk⟩ := exists_rowKey hkey writable
    rcases h.add hle hsize writable hk (placed k si hk h.index) with
      ⟨-, ex, e1, hret, -⟩ | ⟨-, e1, table', si', hret, h'⟩
    · cases hret.unique add
    · cases hret.unique add
      exact ⟨_, table', si', h'⟩
  | rejected run writable placed add ih =>
    obtain ⟨keys, table, si, h⟩ := ih
    obtain ⟨k, hk⟩ := exists_rowKey hkey writable
    rcases h.add hle hsize writable hk (placed k si hk h.index) with
      ⟨-, ex, e1, hret, h'⟩ | ⟨-, e1, table', si', hret, -⟩
    · cases hret.unique add
      exact ⟨keys, table, si, h'⟩
    · cases hret.unique add

/-- The keys of a table that can be used are those of the accepted rows. -/
theorem Usable.mem_keys_iff (h : Usable table0 tableName e accepted keys table si) :
    k ∈ keys ↔ ∃ row ∈ accepted, RowKey table0 row k := by
  constructor
  · intro hmem
    obtain ⟨i, hi, rfl⟩ := List.mem_iff_getElem.1 hmem
    have hi' : i < accepted.length := h.rowKeys.length_eq ▸ hi
    exact ⟨_, List.getElem_mem hi', h.rowKeys.get hi' hi⟩
  · rintro ⟨row, hmem, hk⟩
    obtain ⟨i, hi, rfl⟩ := List.mem_iff_getElem.1 hmem
    have hi' : i < keys.length := h.rowKeys.length_eq ▸ hi
    obtain rfl : k = keys[i] := hk.unique (h.rowKeys.get hi hi')
    exact List.getElem_mem hi'

/-- At every point of a run of `add` calls with rows that can be written on a table with an `INT`
primary key: a lookup of the key of an accepted row finds exactly that row, in its normal form, and
the next call comes back and succeeds exactly when no accepted row has the same key. -/
theorem usable_of_run {names : List Bytes} {types : List FieldType} {primaryKey : Bytes}
    (hs : Suitable e e0 tableName (.create names types primaryKey))
    (hsize : (types.map FieldType.size).sum ≤ 255)
    (hcreate : e.createTable tableName primaryKey types names = (.ok true, e0))
    (hrun : UseRun tableName (.create names types primaryKey) e0 accepted e') :
    (∀ row ∈ accepted, ∀ k value, RowKey (.create names types primaryKey) row k →
      stoi value = .ok k →
      Returns (e'.search · tableName ⟨primaryKey, value⟩ (fun _ => true) names)
        (.ok [({ fields := row } : Record).norm types], e')) ∧
    ∀ row, rowCodec.Accepts types row →
      KeyPlaced e' tableName (.create names types primaryKey) row →
      ∃ k, RowKey (.create names types primaryKey) row k ∧
        (∃ res e'', Returns (e'.add · tableName row) (res, e'')) ∧
        ((∃ e'', Returns (e'.add · tableName row) (.ok true, e'')) ↔
          ∀ earlier ∈ accepted, ¬ RowKey (.create names types primaryKey) earlier k) := by
  obtain ⟨si0, h0⟩ := hs.usable hcreate
  obtain ⟨keys, table, si, h⟩ := hrun.usable h0 hs.int hs.le hsize
  refine ⟨fun row hrow k value hk hvalue => ?_, fun row hrow hplaced => ?_⟩
  · exact h.search hs.int hs.nodup hs.le hs.columns hrow hk hvalue
  · obtain ⟨k, hk⟩ := exists_rowKey hs.int hrow
    refine ⟨k, hk, ?_⟩
    rcases h.add hs.le hsize hrow hk (hplaced k si hk h.index) with
      ⟨hin, ex, e1, hret, -⟩ | ⟨hnew, e1, table', si', hret, -⟩
    · obtain ⟨earlier, hearlier, hsame⟩ := h.mem_keys_iff.1 hin
      refine ⟨⟨_, _, hret⟩, fun ⟨e2, hok⟩ => ?_, fun hfree => absurd hsame (hfree earlier hearlier)⟩
      cases hret.unique hok
    · refine ⟨⟨_, _, hret⟩, fun _ earlier hearlier hsame => ?_, fun _ => ⟨_, hret⟩⟩
      exact hnew (h.mem_keys_iff.2 ⟨earlier, hearlier, hsame⟩)

omit [Unspecified] in
/-- A table with a `VARCHAR` primary key takes no row. -/
theorem add_varchar {size : UInt16} {attr : Attribute}
    (hlookup : e.tablesRaw.lookup tableName = some table)
    (hkey : table.getKey { fields := row } = .ok (.varchar size, attr)) (fuel : Nat) :
    e.add fuel tableName row = some (.error (.runtimeError "Record already exists"), e) := by
  simp only [add, tableAt_of_lookup hlookup, hkey, addKey]
  cases e.sequentialIndexes.lookup ⟨tableName, attr.name⟩ with
  | none => rfl
  | some idx => rfl

end DBEngine

end

section
attribute [local instance] noFloats firstChoice

/-- A table is accepted and refuses a row. -/
theorem not_usable : ∃ e0 ex,
    ({} : DBEngine).createTable (ascii "t") (ascii "id") [.varchar 30] [ascii "id"] =
      (.ok true, e0) ∧
    rowCodec.Accepts [.varchar 30] [ascii "a"] ∧
    Returns (e0.add · (ascii "t") [ascii "a"]) (.error ex, e0) :=
  ⟨_, _, rfl, .cons ⟨_, rfl⟩ .nil, .of_eq fun _ => rfl⟩

/-- A row is added to a new table, and found. -/
theorem usable_of_run_sample : ∃ e,
    Returns (oneTable.add · (ascii "t") [ascii "7", ascii "si"]) (.ok true, e) ∧
    Returns (e.search · (ascii "t") ⟨ascii "id", ascii "7"⟩ (fun _ => true)
        [ascii "id", ascii "x"])
      (.ok [({ fields := [ascii "7", ascii "si"] } : Record).norm [.int, .bool]], e) := by
  let table0 : HeapFile := .create [ascii "id", ascii "x"] [.int, .bool] (ascii "id")
  let row : List Bytes := [ascii "7", ascii "si"]
  have hcreate : ({} : DBEngine).createTable (ascii "t") (ascii "id") [.int, .bool]
    [ascii "id", ascii "x"] = (.ok true, oneTable) := rfl
  have hs : DBEngine.Suitable {} oneTable (ascii "t") table0 :=
    ⟨rfl, by decide, by decide, le_rfl, nofun, rfl⟩
  have hrow : rowCodec.Accepts [.int, .bool] row := .cons ⟨_, rfl⟩ (.cons ⟨_, rfl⟩ .nil)
  have hk : DBEngine.RowKey table0 row 7 := ⟨⟨ascii "id", ascii "7"⟩, rfl, rfl⟩
  have hplaced : DBEngine.KeyPlaced oneTable (ascii "t") table0 row := by
    intro k si _ hsi hmisplaced
    cases hsi
    cases hmisplaced.1
  obtain ⟨-, hcall⟩ := DBEngine.usable_of_run hs (by decide) hcreate .start
  obtain ⟨k, hk', -, hok⟩ := hcall row hrow hplaced
  obtain ⟨e, hadd⟩ := hok.2 nofun
  obtain ⟨hfind, -⟩ := DBEngine.usable_of_run hs (by decide) hcreate
    (.accepted .start hrow hplaced hadd)
  exact ⟨e, hadd, hfind row (.head _) 7 _ hk rfl⟩

end

end DbEngine

end Rdbms
