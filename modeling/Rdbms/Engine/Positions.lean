import Rdbms.Heap.Filter
import Rdbms.Engine.Add

/-!
# Positions

The position that `add` gives to the primary-key index is measured before the index has the key and
the row is written after it. Both are the end of the data file, so in every run of `add` on a table
with an `INT` primary key each accepted key is stored with the position of its own row
(`positions_of_run`).
-/

namespace Rdbms

namespace DbEngine

section
variable [FloatType] {e e0 e' : DBEngine} {fuel : Nat} {tableName : Bytes} {table table' : HeapFile}
  {row : List Bytes} {record : Record} {k pos : Int} {log : List (Int × Int)}
  {types : List FieldType}

/-! ## The primary key of a row -/

namespace HeapFile

omit [FloatType] in
/-- An attribute that is there has an index in the list of the names. -/
theorem getAttributeIdx_lt {name : Bytes} {i : Nat} (h : table.getAttributeIdx name = .ok i) :
    i < table.attributeNames.length := by
  unfold getAttributeIdx at h
  cases hfind : table.attributeNames.findIdx? (· = name) with
  | none =>
    rw [hfind] at h
    cases h
  | some counter =>
    rw [hfind] at h
    cases h
    have := (List.findIdx?_eq_some_iff_getElem.1 hfind).1
    omega

omit [FloatType] in
/-- The `INT` primary key of a row is the field of one column. -/
theorem getKey_of_int (hkey : table.getType table.primaryKey = .ok .int) :
    ∃ (i : Nat) (name : Bytes), table.attributeTypes[i]? = some .int ∧ ∀ record type attr,
      table.getKey record = .ok (type, attr) ↔
        type = .int ∧ attr.name = name ∧ record.fields[i]? = some attr.value := by
  unfold getType at hkey
  cases hidx : table.getAttributeIdx table.primaryKey with
  | error ex =>
    rw [hidx] at hkey
    cases hkey
  | ok i =>
    rw [hidx] at hkey
    have htype : vectorAt table.attributeTypes i = .ok .int := hkey
    have hi := getAttributeIdx_lt hidx
    have hname : vectorAt table.attributeNames i = .ok table.attributeNames[i] :=
      vectorAt_eq_ok.2 (List.getElem?_eq_getElem hi)
    refine ⟨i, table.attributeNames[i], vectorAt_eq_ok.1 htype, fun record type attr => ?_⟩
    have hget : table.getKey record = (vectorAt record.fields i).map fun value =>
        (.int, ⟨table.attributeNames[i], value⟩) := by
      simp only [getKey, getKeyIdx, hidx, htype, hname, bind, Except.bind, pure, Except.pure]
      rfl
    rw [hget, ← vectorAt_eq_ok]
    obtain ⟨name, value⟩ := attr
    cases vectorAt record.fields i with
    | error ex => simp [Except.map]
    | ok v => simp [Except.map, eq_comm]

end HeapFile

/-- An `INT` field of a stored row parses to the same number. -/
theorem stoi_norm {i : Nat} {field : Bytes} (htype : types[i]? = some .int)
    (hfield : record.fields[i]? = some field) (hk : stoi field = .ok k) :
    ∃ field', (record.norm types).fields[i]? = some field' ∧ stoi field' = .ok k := by
  refine ⟨FieldType.norm .int field, ?_, ?_⟩
  · show (List.zipWith FieldType.norm types record.fields)[i]? = _
    rw [List.getElem?_zipWith, htype, hfield]
  · obtain ⟨h1, h2⟩ := stoi_eq_ok hk
    rw [FieldType.norm, hk]
    exact stoi_printInt h1 h2

/-! ## Runs -/

namespace DBEngine

/-- What an accepted call of `add` hands to the primary-key index: the key of the row and the end of
the data file. -/
def Hands (fuel : Nat) (e e' : DBEngine) (tableName : Bytes) (row : List Bytes) (k pos : Int) :
    Prop :=
  ∃ table attr si si' records, e.tablesRaw.lookup tableName = some table ∧
    table.getKey { fields := row } = .ok (.int, attr) ∧ stoi attr.value = .ok k ∧
    pos = table.nextPos ∧ e.sequentialIndexes.lookup ⟨tableName, attr.name⟩ = some (.int si) ∧
    si.add fuel k pos = some (.ok records, si') ∧
    e'.sequentialIndexes.lookup ⟨tableName, attr.name⟩ = some (.int si')

/-- A key and a position are handed over once. -/
theorem Hands.unique {k' pos' : Int} (h : Hands fuel e e' tableName row k pos)
    (h' : Hands fuel e e' tableName row k' pos') : k = k' ∧ pos = pos' := by
  obtain ⟨table, attr, si, si1, records, hlookup, hkey, hk, rfl, -⟩ := h
  obtain ⟨table', attr', si', si1', records', hlookup', hkey', hk', rfl, -⟩ := h'
  cases hlookup.symm.trans hlookup'
  cases hkey.symm.trans hkey'
  cases hk.symm.trans hk'
  exact ⟨rfl, rfl⟩

/-- A run of `add` calls on a table with castable rows, and on other tables: the keys and positions
that the accepted ones have handed to the index. -/
inductive AddRun (tableName : Bytes) (types : List FieldType) (e0 : DBEngine) :
    List (Int × Int) → DBEngine → Prop
  | start : AddRun tableName types e0 [] e0
  | accepted {log : List (Int × Int)} {e e' : DBEngine} {fuel : Nat} {row : List Bytes}
      {k pos : Int} (run : AddRun tableName types e0 log e) (castable : Castable types row)
      (add : e.add fuel tableName row = some (.ok true, e'))
      (hands : Hands fuel e e' tableName row k pos) :
      AddRun tableName types e0 (log ++ [(k, pos)]) e'
  | rejected {log : List (Int × Int)} {e e' : DBEngine} {fuel : Nat} {row : List Bytes} {ex : Exn}
      (run : AddRun tableName types e0 log e) (castable : Castable types row)
      (add : e.add fuel tableName row = some (.error ex, e')) : AddRun tableName types e0 log e'
  | other {log : List (Int × Int)} {e e' : DBEngine} {fuel : Nat} {other : Bytes} {row : List Bytes}
      {res : Except Exn Bool} (run : AddRun tableName types e0 log e) (ne : other ≠ tableName)
      (add : e.add fuel other row = some (res, e')) : AddRun tableName types e0 log e'

/-- The rows of a table, and where those of `log` are. -/
structure Placed (table : HeapFile) (records : List Record) (log : List (Int × Int)) : Prop where
  closed : table.leftOpen = none
  stores : table.Stores records
  at_pos : ∀ p ∈ log, ∃ (i : Nat) (hi : i < records.length) (attr : Attribute),
    p.2 = table.pos i ∧ table.getKey records[i] = .ok (.int, attr) ∧ stoi attr.value = .ok p.1
  sorted : (log.map (·.2)).Pairwise (· < ·)

/-- The tables that a run is about. -/
structure IntKeyed (types : List FieldType) (table : HeapFile) : Prop where
  types : table.attributeTypes = types
  key : table.getType table.primaryKey = .ok .int
  noFloat : .float ∉ table.attributeTypes
  size : (table.attributeTypes.map FieldType.size).sum ≤ 255

/-- A row of such a table has bytes. -/
theorem IntKeyed.size_pos (hkeyed : IntKeyed types table) : 0 < table.getRecordSize := by
  obtain ⟨i, name, htype, -⟩ := HeapFile.getKey_of_int hkeyed.key
  have hfour := four_le_rowWidth htype
  have hsize := recordSize_of_lt (Nat.lt_succ_of_le hkeyed.size)
  rw [HeapFile.getRecordSize, hsize]
  exact Nat.zero_lt_of_lt hfour

/-- A castable row is appended to the data file. -/
theorem Placed.add {records : List Record} (hp : Placed table records log)
    (hkeyed : IntKeyed types table) (hrow : Castable types row) :
    ∃ table', table.add { fields := row } = (.ok table.nextPos, table') ∧ IntKeyed types table' ∧
      ∀ attr, table.getKey { fields := row } = .ok (.int, attr) → stoi attr.value = .ok k →
        Placed table' (records ++ [{ fields := row }]) (log ++ [(k, table.nextPos)]) := by
  rw [← hkeyed.types] at hrow
  obtain ⟨buffer, hwrite⟩ := hrow.write hkeyed.noFloat hkeyed.size
  refine ⟨{ table with data := table.data ++ buffer, recordCount := table.recordCount + 1 },
    HeapFile.add_of_closed hp.closed hwrite,
    ⟨hkeyed.types, hkeyed.key, hkeyed.noFloat, hkeyed.size⟩, fun attr hattr hk => ?_⟩
  have hend : table.nextPos = table.pos records.length := hp.stores.nextPos
  refine ⟨hp.closed, hp.stores.append hwrite _, fun p hmem => ?_, ?_⟩
  · rcases List.mem_append.1 hmem with hmem | hmem
    · obtain ⟨i, hi, attr', hpos, hkey', hk'⟩ := hp.at_pos p hmem
      refine ⟨i, ?_, attr', hpos, ?_, hk'⟩
      · rw [List.length_append]
        exact Nat.lt_add_right 1 hi
      · rw [List.getElem_append_left hi]
        exact hkey'
    · obtain rfl := List.mem_singleton.1 hmem
      refine ⟨records.length, ?_, attr, hend, ?_, hk⟩
      · simp
      · rw [List.getElem_concat_length rfl]
        exact hattr
  · rw [List.map_append, List.pairwise_append]
    refine ⟨hp.sorted, List.pairwise_singleton _ _, fun p hpm q hq => ?_⟩
    obtain ⟨⟨k', p'⟩, hmem, rfl⟩ := List.mem_map.1 hpm
    obtain ⟨i, hi, -, hpos, -⟩ := hp.at_pos _ hmem
    rw [List.mem_singleton.1 hq, hpos, hend]
    exact Int.ofNat_lt.2 (Nat.mul_lt_mul_of_pos_right hi hkeyed.size_pos)

/-- A call on another table leaves this one as it is. -/
theorem lookup_of_add_other {other : Bytes} {res : Except Exn Bool} (hne : other ≠ tableName)
    (hadd : e.add fuel other row = some (res, e')) :
    e'.tablesRaw.lookup tableName = e.tablesRaw.lookup tableName := by
  cases add_cases hadd with
  | noKey => rfl
  | atKey ex lookup getKey addKey => rw [addKey_tablesRaw addKey]
  | atRow lookup getKey addKey add =>
    rw [lookup_setTable_ne hne.symm, addKey_tablesRaw addKey]
  | done lookup getKey addKey add =>
    rw [lookup_setTable_ne hne.symm, addKey_tablesRaw addKey]

/-- What a call with a castable row comes to. -/
theorem Placed.call {records : List Record} {res : Except Exn Bool}
    (hlookup : e.tablesRaw.lookup tableName = some table) (hp : Placed table records log)
    (hkeyed : IntKeyed types table) (hrow : Castable types row)
    (hadd : e.add fuel tableName row = some (res, e')) :
    (res = .ok true ∧ ∃ k table', Hands fuel e e' tableName row k table.nextPos ∧
      e'.tablesRaw.lookup tableName = some table' ∧ IntKeyed types table' ∧
      Placed table' (records ++ [{ fields := row }]) (log ++ [(k, table.nextPos)])) ∨
    ∃ ex, res = .error ex ∧ e'.tablesRaw.lookup tableName = some table := by
  cases add_cases hadd with
  | noKey ex => exact .inr ⟨ex, rfl, hlookup⟩
  | atKey ex lookup getKey addKey =>
    refine .inr ⟨ex, rfl, ?_⟩
    rw [addKey_tablesRaw addKey, hlookup]
  | atRow lookup getKey addKey add =>
    cases hlookup.symm.trans lookup
    obtain ⟨table', hok, -⟩ := hp.add (k := 0) hkeyed hrow
    cases hok.symm.trans add
  | @done _ table'' type attr e1 pos lookup getKey addKey add =>
    cases hlookup.symm.trans lookup
    obtain ⟨i, name, -, hkey⟩ := HeapFile.getKey_of_int hkeyed.key
    obtain rfl := ((hkey _ _ _).1 getKey).1
    obtain ⟨si, si', k, records', hsi, hk, hsiadd, rfl⟩ := addKey_int addKey
    obtain ⟨table', hok, hkeyed', hplaced⟩ := hp.add (k := k) hkeyed hrow
    cases hok.symm.trans add
    refine .inl ⟨rfl, k, table'', ⟨table, attr, si, si', records', hlookup, getKey, hk, rfl, hsi,
      hsiadd, ?_⟩, lookup_setTable_self lookup, hkeyed', hplaced attr getKey hk⟩
    exact KeyedMap.lookup_replace_self (by simp [hsi])

/-- What holds at every point of a run. -/
theorem AddRun.placed {table0 : HeapFile} {records : List Record}
    (hlookup : e0.tablesRaw.lookup tableName = some table0) (hkeyed : IntKeyed types table0)
    (hclosed : table0.leftOpen = none) (hstores : table0.Stores records)
    (hrun : AddRun tableName types e0 log e) :
    ∃ table records, e.tablesRaw.lookup tableName = some table ∧ IntKeyed types table ∧
      Placed table records log := by
  induction hrun with
  | start => exact ⟨table0, records, hlookup, hkeyed, hclosed, hstores, nofun, .nil⟩
  | @accepted log e e' fuel row k pos run castable add hands ih =>
    obtain ⟨table, records, hl, hkeyed, hp⟩ := ih
    rcases hp.call hl hkeyed castable add with ⟨-, k', table', hhands, hl', hkeyed', hp'⟩ | ⟨ex, hex, -⟩
    · obtain ⟨rfl, rfl⟩ := hands.unique hhands
      exact ⟨table', _, hl', hkeyed', hp'⟩
    · cases hex
  | rejected run castable add ih =>
    obtain ⟨table, records, hl, hkeyed, hp⟩ := ih
    rcases hp.call hl hkeyed castable add with ⟨hok, -⟩ | ⟨ex, -, hl'⟩
    · cases hok
    · exact ⟨table, records, hl', hkeyed, hp⟩
  | other run ne add ih =>
    obtain ⟨table, records, hl, hkeyed, hp⟩ := ih
    exact ⟨table, records, (lookup_of_add_other ne add).trans hl, hkeyed, hp⟩

/-- The position of a row reads back a row with its key. -/
theorem Placed.read {records : List Record} (hp : Placed table records log)
    (hkeyed : IntKeyed types table) {p : Int × Int} (hmem : p ∈ log) :
    ∃ attr, table.getKey (table.read p.2).1 = .ok (.int, attr) ∧ stoi attr.value = .ok p.1 := by
  obtain ⟨i, hi, attr, hpos, hattr, hk⟩ := hp.at_pos p hmem
  obtain ⟨j, name, htype, hkey⟩ := HeapFile.getKey_of_int hkeyed.key
  obtain ⟨-, hname, hfield⟩ := (hkey _ _ _).1 hattr
  obtain ⟨field', hfield', hk'⟩ := stoi_norm htype hfield hk
  rw [hpos, hp.stores.read hp.closed hi]
  exact ⟨⟨name, field'⟩, (hkey _ _ _).2 ⟨rfl, rfl, hfield'⟩, hk'⟩

/-- At every point of a run of `add` calls on a table with an `INT` primary key: no two accepted
calls have handed the same position to the index; the row at each of the positions has the key that
went with it; an accepted call hands its key and the end of the data file to the index, and a
rejected one leaves the heap file as it is. -/
theorem positions_of_run {table0 : HeapFile} {records : List Record}
    (hlookup : e0.tablesRaw.lookup tableName = some table0) (hkeyed : IntKeyed types table0)
    (hclosed : table0.leftOpen = none) (hstores : table0.Stores records)
    (hrun : AddRun tableName types e0 log e) :
    ∃ table, e.tablesRaw.lookup tableName = some table ∧
      (log.map (·.2)).Nodup ∧
      (∀ p ∈ log, ∃ attr, table.getKey (table.read p.2).1 = .ok (.int, attr) ∧
        stoi attr.value = .ok p.1) ∧
      ∀ fuel row res e', Castable types row → e.add fuel tableName row = some (res, e') →
        (res = .ok true ∧ ∃ k pos, Hands fuel e e' tableName row k pos) ∨
          ∃ ex, res = .error ex ∧ e'.tablesRaw.lookup tableName = some table := by
  obtain ⟨table, records, hl, hkeyed', hp⟩ := hrun.placed hlookup hkeyed hclosed hstores
  refine ⟨table, hl, hp.sorted.imp (fun h => h.ne), fun p hmem => hp.read hkeyed' hmem,
    fun fuel row res e' hrow hadd => ?_⟩
  rcases hp.call hl hkeyed' hrow hadd with ⟨hres, k, table', hhands, -⟩ | hrejected
  · exact .inl ⟨hres, k, _, hhands⟩
  · exact .inr hrejected

end DBEngine

end

section
attribute [local instance] noFloats

/-- An engine with a table of an `INT` primary key. -/
def oneTable : DBEngine :=
  (({} : DBEngine).createTable (ascii "t") (ascii "id") [.int, .bool] [ascii "id", ascii "x"]).2

/-- A row is added, and read at its position. -/
theorem positions_of_run_sample : ∃ k pos e table,
    DBEngine.AddRun (ascii "t") [.int, .bool] oneTable [(k, pos)] e ∧
    e.tablesRaw.lookup (ascii "t") = some table ∧
    ∃ attr, table.getKey (table.read pos).1 = .ok (.int, attr) ∧ stoi attr.value = .ok k := by
  have hlookup : oneTable.tablesRaw.lookup (ascii "t") =
    some (.create [ascii "id", ascii "x"] [.int, .bool] (ascii "id")) := rfl
  have hkeyed : DBEngine.IntKeyed [.int, .bool]
    (.create [ascii "id", ascii "x"] [.int, .bool] (ascii "id")) := ⟨rfl, rfl, by decide, by decide⟩
  have hrow : Castable [.int, .bool] [ascii "7", ascii "si"] := ⟨le_rfl, by decide⟩
  have hres : (oneTable.add 5 (ascii "t") [ascii "7", ascii "si"]).map (·.1) = some (.ok true) := rfl
  obtain ⟨⟨res, e⟩, hadd, hok⟩ := Option.map_eq_some_iff.1 hres
  obtain rfl : res = .ok true := hok
  obtain ⟨_, -, -, -, hcall⟩ :=
    DBEngine.positions_of_run hlookup hkeyed rfl ⟨[], .nil, rfl⟩ .start
  rcases hcall _ _ _ _ hrow hadd with ⟨-, k, pos, hands⟩ | ⟨ex, hex, -⟩
  · have hrun := DBEngine.AddRun.start.accepted hrow hadd hands
    obtain ⟨table, hl, -, hread, -⟩ :=
      DBEngine.positions_of_run hlookup hkeyed rfl ⟨[], .nil, rfl⟩ hrun
    exact ⟨k, pos, e, table, hrun, hl, hread (k, pos) (.head _)⟩
  · cases hex

end

end DbEngine

end Rdbms
