import Rdbms.Heap.Frame
import Rdbms.Engine.Add
import Rdbms.Engine.Drop

/-!
# The states of the engine

The engine starts empty, and its operations lead from there to every state (`Reached`). In all of
them a table with rows is not too wide for the record size that it keeps, and the static variable of
`create_index` is not negative (`Reached.counted`).
-/

namespace Rdbms

namespace DbEngine
variable [FloatType] {e e' : DBEngine} {tableName : Bytes} {table table' : HeapFile} {fuel : Nat}

/-! ## Tables -/

namespace HeapFile

omit [FloatType] in
/-- Neither the columns nor the number of rows have changed. -/
def SameRows (table table' : HeapFile) : Prop :=
  table'.attributeTypes = table.attributeTypes ∧ table'.recordCount = table.recordCount

omit [FloatType] in
/-- One step after another. -/
theorem SameRows.trans {table'' : HeapFile} (h : SameRows table table') (h' : SameRows table' table'') :
    SameRows table table'' := ⟨h'.1.trans h.1, h'.2.trans h.2⟩

omit [FloatType] in
/-- Opening the stream adds no row. -/
theorem sameRows_openStream (table : HeapFile) (truncate : Bool) :
    SameRows table (table.openStream truncate).1 := by
  rw [openStream]
  split <;> exact ⟨rfl, rfl⟩

omit [FloatType] in
/-- Nor do the bytes that are handed to it. -/
theorem sameRows_put (table : HeapFile) (good : Bool) (bytes : Bytes) :
    SameRows table (table.put good bytes) := by
  obtain ⟨data, leftOpen, hput⟩ := table.exists_put good bytes
  rw [hput]
  exact ⟨rfl, rfl⟩

/-- `read` adds no row. -/
theorem sameRows_read (table : HeapFile) (pos : Int) : SameRows table (table.read pos).2 :=
  sameRows_openStream table false

/-- `load` adds no row. -/
theorem sameRows_load (table : HeapFile) : SameRows table table.load.2 :=
  sameRows_openStream table false

/-- `remove` takes no row off the count. -/
theorem sameRows_remove (table : HeapFile) (pos : Int) : SameRows table (table.remove pos).2 := by
  have hopen := sameRows_openStream table true
  simp only [remove]
  split
  · exact hopen
  · exact hopen.trans (sameRows_put _ _ _)

/-- A table with rows has a record size. -/
def Counted (table : HeapFile) : Prop :=
  table.recordCount ≠ 0 → rowCodec.rowWidth table.attributeTypes ≤ 255

/-- A row with an `INT` column has bytes. -/
theorem Counted.size_pos {i : Nat} (h : table.Counted) (hcount : table.recordCount ≠ 0)
    (htype : table.attributeTypes[i]? = some .int) : 0 < table.getRecordSize := by
  have hfour := four_le_rowWidth htype
  have hsize := recordSize_of_lt (Nat.lt_succ_of_le (h hcount))
  rw [getRecordSize]
  omega

/-- The same rows have a record size as well. -/
theorem SameRows.counted (h : SameRows table table') (hc : table.Counted) : table'.Counted := by
  rw [Counted, h.1, h.2]
  exact hc

/-- A table that gets a row has a record size. -/
theorem Counted.add (h : table.Counted) (record : Record) : (table.add record).2.Counted := by
  cases hwrite : record.write table.attributeTypes with
  | error ex =>
    rw [add_error hwrite]
    exact (sameRows_openStream table false).counted h
  | ok buffer =>
    intro _
    have htypes : (table.add record).2.attributeTypes = table.attributeTypes := by
      have hopen := sameRows_openStream table false
      simp only [HeapFile.add, hopen.1, hwrite]
      exact (sameRows_put _ _ _).1.trans hopen.1
    rw [htypes]
    exact Nat.le_of_lt_succ (Record.write_eq_ok.1 hwrite).2

end HeapFile

/-! ## The engine -/

namespace DBEngine

/-- The tables with rows have a record size, and the static variable is not negative. -/
structure Counted (e : DBEngine) : Prop where
  tables : ∀ tableName table, e.tablesRaw.lookup tableName = some table → table.Counted
  prevPos : ∀ pos, e.prevPos = some pos → 0 ≤ pos

/-- The tables are the same. -/
theorem Counted.congr (h : e.Counted) (htables : e'.tablesRaw = e.tablesRaw)
    (hprev : e'.prevPos = e.prevPos) : e'.Counted :=
  ⟨fun tableName table hl => h.tables tableName table (htables ▸ hl),
    fun pos hp => h.prevPos pos (hprev ▸ hp)⟩

/-- One table is replaced. -/
theorem Counted.setTable (h : e.Counted) (hc : table.Counted) :
    (e.setTable tableName table).Counted where
  tables name table1 hl := by
    by_cases hname : name = tableName
    · subst hname
      cases hold : e.tablesRaw.lookup name with
      | some table0 =>
        rw [lookup_setTable_self hold] at hl
        cases hl
        exact hc
      | none =>
        have hmem : name ∉ (e.setTable name table).tablesRaw := by
          rw [DBEngine.setTable, AList.mem_replace, ← AList.lookup_eq_none]
          exact hold
        rw [AList.lookup_eq_none.2 hmem] at hl
        cases hl
    · rw [lookup_setTable_ne hname] at hl
      exact h.tables name table1 hl
  prevPos := h.prevPos

/-- There are no tables. -/
theorem counted_empty : ({} : DBEngine).Counted where
  tables _ _ hl := nomatch hl
  prevPos _ hp := nomatch hp

/-- A new table has no rows. -/
theorem Counted.createTable (h : e.Counted) (primaryKey : Bytes) (types : List FieldType)
    (names : List Bytes) : (e.createTable tableName primaryKey types names).2.Counted := by
  by_cases hmem : tableName ∈ e.tablesRaw
  · rw [DBEngine.createTable, if_pos hmem]
    exact h
  · let table : HeapFile := { attributeNames := names, attributeTypes := types, primaryKey }
    have hnew : Counted { e with tablesRaw := e.tablesRaw.emplace tableName table } := by
      refine ⟨fun name table1 hl => ?_, h.prevPos⟩
      simp only [KeyedMap.emplace, if_neg hmem] at hl
      by_cases hname : name = tableName
      · subst hname
        rw [AList.lookup_insert] at hl
        cases hl
        exact fun hcount => absurd rfl hcount
      · rw [AList.lookup_insert_ne hname] at hl
        exact h.tables name table1 hl
    rw [DBEngine.createTable, if_neg hmem]
    simp only
    split <;> exact hnew.congr rfl rfl

/-- A table has gone. -/
theorem Counted.dropTable (h : e.Counted) (hdrop : e.dropTable tableName = some e') : e'.Counted := by
  unfold DBEngine.dropTable at hdrop
  split_ifs at hdrop
  cases hdrop
  refine ⟨fun name table hl => h.tables name table ?_, h.prevPos⟩
  by_cases hname : name = tableName
  · subst hname
    rw [AList.lookup_erase] at hl
    cases hl
  · rwa [AList.lookup_erase_ne hname] at hl

/-! ### Rows -/

/-- The engine's `add` goes to one table. -/
theorem Counted.add {value : List Bytes} {res : Except Exn Bool} (h : e.Counted)
    (hadd : e.add fuel tableName value = some (res, e')) : e'.Counted := by
  have hkey : ∀ {type key pos e1} {r : Except Exn Bool},
      e.addKey fuel tableName type key pos = some (r, e1) → e1.Counted := fun hk => by
    obtain rfl | ⟨idx, rfl⟩ := addKey_state hk
    · exact h
    · exact h.congr rfl rfl
  cases add_cases hadd with
  | noKey => exact h
  | atKey ex lookup getKey addKey => exact hkey addKey
  | atRow lookup getKey addKey add =>
    have hc := (h.tables _ _ lookup).add { fields := value }
    rw [add] at hc
    exact (hkey addKey).setTable hc
  | done lookup getKey addKey add =>
    have hc := (h.tables _ _ lookup).add { fields := value }
    rw [add] at hc
    exact (hkey addKey).setTable hc

/-- The loop of `remove` changes the sequential indexes only. -/
theorem removeKey_state {key : Attribute} {indexes : List Index} {rawPos : Int}
    {res : Except Exn Int} (h : removeKey fuel tableName key indexes e rawPos = some (res, e')) :
    e'.tablesRaw = e.tablesRaw ∧ e'.prevPos = e.prevPos := by
  induction indexes generalizing e rawPos with
  | nil =>
    cases h
    exact ⟨rfl, rfl⟩
  | cons index indexes ih =>
    unfold removeKey at h
    split at h
    · exact ih h
    · split_ifs at h
      · exact ih h
      · simp only at h
        split at h
        · cases h
          exact ⟨rfl, rfl⟩
        · exact ih h
        · obtain ⟨⟨res1, idx1⟩, -, h⟩ := Option.bind_eq_some_iff.1 h
          cases res1 with
          | error ex =>
            cases h
            exact ⟨rfl, rfl⟩
          | ok pos => exact ih (e := e.setSequential index idx1) h

/-- The engine's `remove` adds no row. -/
theorem Counted.remove [Unspecified] {key : Attribute} {res : Except Exn Bool} (h : e.Counted)
    (hrem : e.remove fuel tableName key = some (res, e')) : e'.Counted := by
  unfold DBEngine.remove at hrem
  obtain ⟨⟨res1, e1⟩, hkey, hrem⟩ := Option.bind_eq_some_iff.1 hrem
  obtain ⟨htables, hprev⟩ := removeKey_state hkey
  have h1 := h.congr htables hprev
  cases res1 with
  | error ex =>
    cases hrem
    exact h1
  | ok rawPos =>
    simp only at hrem
    split_ifs at hrem
    · cases hrem
      exact h1
    · split at hrem
      · cases hrem
        exact h1
      · next table hat =>
        cases hrem
        have hc := h1.tables _ _ (tableAt_eq_ok.1 hat)
        exact h1.setTable ((HeapFile.sameRows_remove table rawPos).counted hc)

/-! ### Queries -/

/-- Reading rows adds none. -/
theorem sameRows_readRows (expr : Record → Bool) (positions : List Int) (table : HeapFile) :
    HeapFile.SameRows table (readRows expr positions table).2 := by
  induction positions generalizing table with
  | nil => exact ⟨rfl, rfl⟩
  | cons pos positions ih => exact (HeapFile.sameRows_read table pos).trans (ih _)

/-- An answer adds no row. -/
theorem Counted.answer (h : e.Counted) (hl : e.tablesRaw.lookup tableName = some table)
    (positions : List Int) (expr : Record → Bool) (selected : List Bytes) :
    (e.answer tableName table positions expr selected).2.Counted :=
  h.setTable ((sameRows_readRows expr positions table).counted (h.tables _ _ hl))

/-- `load` adds no row. -/
theorem Counted.load (h : e.Counted) (tableName : Bytes) (selected : List Bytes) :
    (e.load tableName selected).2.Counted := by
  rw [DBEngine.load]
  split
  · exact h
  · next table hat =>
    exact h.setTable ((HeapFile.sameRows_load table).counted (h.tables _ _ (tableAt_eq_ok.1 hat)))

/-- `load` with a predicate adds no row. -/
theorem Counted.loadIf (h : e.Counted) (tableName : Bytes) (selected : List Bytes)
    (expr : Record → Bool) : (e.loadIf tableName selected expr).2.Counted := by
  have hload := h.load tableName selected
  rw [DBEngine.loadIf]
  split
  · next heq => rwa [heq] at hload
  · next heq =>
    rw [heq] at hload
    split <;> exact hload

/-- `search` adds no row. -/
theorem Counted.search [Unspecified] {key : Attribute} {expr : Record → Bool}
    {selected : List Bytes} {res : Except Exn (List Record)} (h : e.Counted)
    (hs : e.search fuel tableName key expr selected = some (res, e')) : e'.Counted := by
  unfold DBEngine.search at hs
  split at hs
  · cases hs
    exact h
  · next table hat =>
    have hl := tableAt_eq_ok.1 hat
    simp only at hs
    split at hs
    · cases hs
      exact h
    · cases hs
      exact h.answer hl [] expr selected
    · obtain ⟨r, -, heq⟩ := Option.map_eq_some_iff.1 hs
      cases r with
      | error ex =>
        cases heq
        exact h
      | ok positions =>
        cases heq
        exact h.answer hl positions expr selected

/-- `range_search` adds no row. -/
theorem Counted.rangeSearch [Unspecified] {beginKey endKey : Attribute} {expr : Record → Bool}
    {selected : List Bytes} {res : Except Exn (List Record)} (h : e.Counted)
    (hs : e.rangeSearch fuel tableName beginKey endKey expr selected = some (res, e')) :
    e'.Counted := by
  unfold DBEngine.rangeSearch at hs
  extract_lets loaded at hs
  have h1 : loaded.2.Counted := by
    unfold loaded
    split_ifs
    · exact h.load tableName selected
    · exact h
  clear_value loaded
  obtain ⟨r, e1⟩ := loaded
  cases r with
  | error ex =>
    cases hs
    exact h1
  | ok u =>
    simp only at hs
    split at hs
    · cases hs
      exact h1
    · cases hs
      exact h1
    · next hat =>
      cases hs
      exact h1.answer (tableAt_eq_ok.1 hat) [] expr selected
    · next hat =>
      obtain ⟨r, -, heq⟩ := Option.map_eq_some_iff.1 hs
      cases r with
      | error ex =>
        cases heq
        exact h1
      | ok positions =>
        cases heq
        exact h1.answer (tableAt_eq_ok.1 hat) positions expr selected

/-! ### Indexes -/

omit [FloatType] in
/-- The next position is behind the last one. -/
theorem posGetter_nonneg {prevPos : Option Int} (h : ∀ pos, prevPos = some pos → 0 ≤ pos)
    (recordSize : Nat) : 0 ≤ posGetter recordSize prevPos := by
  cases prevPos with
  | none => simp [posGetter]
  | some pos =>
    have := h pos rfl
    rw [posGetter, Option.getD_some]
    omega

omit [FloatType] in
/-- The positions that are given to the rows are not negative. -/
theorem keyValues_nonneg {κ : Type} (cast : Bytes → Except Exn κ) (recordSize : Nat)
    (records : List Record) {prevPos : Option Int} (h : ∀ pos, prevPos = some pos → 0 ≤ pos) :
    (∀ pairs, (keyValues cast recordSize records prevPos).1 = .ok pairs → ∀ p ∈ pairs, 0 ≤ p.2) ∧
      ∀ pos, (keyValues cast recordSize records prevPos).2 = some pos → 0 ≤ pos := by
  induction records generalizing prevPos with
  | nil =>
    refine ⟨fun pairs hpairs => ?_, h⟩
    cases hpairs
    exact List.forall_mem_nil _
  | cons record records ih =>
    have hpos := posGetter_nonneg h recordSize
    have hnext : ∀ pos, some (posGetter recordSize prevPos) = some pos → 0 ≤ pos := fun pos heq => by
      cases heq
      exact hpos
    obtain ⟨hpairs, hprev⟩ := ih hnext
    rw [keyValues]
    split
    · exact ⟨nofun, h⟩
    · refine ⟨fun pairs heq => ?_, hprev⟩
      simp only at heq
      cases hrest : (keyValues cast recordSize records (some (posGetter recordSize prevPos))).1 with
      | error ex =>
        rw [hrest] at heq
        cases heq
      | ok rest =>
        rw [hrest] at heq
        cases heq
        exact List.forall_mem_cons.2 ⟨hpos, hpairs rest hrest⟩

variable [Unspecified] {κ : Type} [KeyType κ] [IntCast κ]

/-- The switch changes the maps of indexes only. -/
theorem bulkIndex_state {index : Index} {indexType : IndexType} {alt : Alternative κ}
    {pairs : List (κ × Int)} {res : Except Exn Unit}
    (h : e.bulkIndex fuel index indexType alt pairs = some (res, e')) :
    e'.tablesRaw = e.tablesRaw ∧ e'.prevPos = e.prevPos := by
  unfold bulkIndex at h
  split_ifs at h
  · cases h
    exact ⟨rfl, rfl⟩
  · cases indexType with
    | avl | sequential | isam =>
      obtain ⟨⟨r, m⟩, -, heq⟩ := Option.map_eq_some_iff.1 h
      cases heq
      exact ⟨rfl, rfl⟩

/-- Loading an index adds no row. -/
theorem Counted.loadIndex {index : Index} {indexType : IndexType} {alt : Alternative κ}
    {cast : Bytes → Except Exn κ} {recordSize : Nat} {res : Except Exn Unit} (h : e.Counted)
    (hi : e.loadIndex fuel index indexType alt cast recordSize = some (res, e')) : e'.Counted := by
  have hload := h.load index.table [index.attributeName]
  unfold DBEngine.loadIndex at hi
  split at hi
  · next heq =>
    rw [heq] at hload
    cases hi
    exact hload
  · next records e1 heq =>
    rw [heq] at hload
    obtain ⟨-, hprev⟩ := keyValues_nonneg cast recordSize records hload.prevPos
    split at hi
    · next hkeys =>
      rw [hkeys] at hprev
      cases hi
      exact ⟨hload.tables, hprev⟩
    · next keys prevPos hkeys =>
      rw [hkeys] at hprev
      obtain ⟨htables, hpos⟩ := bulkIndex_state hi
      have h1 : Counted { e1 with prevPos } := ⟨hload.tables, hprev⟩
      exact h1.congr htables hpos

/-- `create_index` adds no row. -/
theorem Counted.createIndex [IntCast FloatType.Value] {columnName : Bytes} {indexType : IndexType}
    {res : Except Exn Unit} (h : e.Counted)
    (hi : e.createIndex fuel tableName columnName indexType = some (res, e')) : e'.Counted := by
  unfold DBEngine.createIndex at hi
  split at hi
  · cases hi
    exact h
  · simp only at hi
    split at hi
    · cases hi
      exact h
    · cases hi
      exact h
    · exact h.loadIndex hi
    · exact h.loadIndex hi
    · cases hi
      exact h

/-! ## Reached states -/

section
variable [IntCast FloatType.Value]

/-- Whatever the call is. -/
theorem Counted.perform {op : TableOp} {res : Except Exn Reply} (h : e.Counted)
    (hp : e.perform fuel tableName op = some (res, e')) : e'.Counted := by
  cases op with
  | add value =>
    obtain ⟨⟨r, e1⟩, hop, heq⟩ := Option.map_eq_some_iff.1 hp
    cases heq
    exact h.add hop
  | remove key =>
    obtain ⟨⟨r, e1⟩, hop, heq⟩ := Option.map_eq_some_iff.1 hp
    cases heq
    exact h.remove hop
  | search key expr selected =>
    obtain ⟨⟨r, e1⟩, hop, heq⟩ := Option.map_eq_some_iff.1 hp
    cases heq
    exact h.search hop
  | rangeSearch beginKey endKey expr selected =>
    obtain ⟨⟨r, e1⟩, hop, heq⟩ := Option.map_eq_some_iff.1 hp
    cases heq
    exact h.rangeSearch hop
  | load selected =>
    cases hp
    exact h.load tableName selected
  | loadIf selected expr =>
    cases hp
    exact h.loadIf tableName selected expr
  | createIndex columnName indexType =>
    obtain ⟨⟨r, e1⟩, hop, heq⟩ := Option.map_eq_some_iff.1 hp
    cases heq
    exact h.createIndex hop

/-- The states that the operations of the engine lead to, from its start on an empty disk. -/
inductive Reached : DBEngine → Prop
  | start : Reached {}
  | createTable {e : DBEngine} (tableName primaryKey : Bytes) (types : List FieldType)
      (attributeNames : List Bytes) : Reached e →
      Reached (e.createTable tableName primaryKey types attributeNames).2
  | dropTable {e e' : DBEngine} {tableName : Bytes} : Reached e →
      e.dropTable tableName = some e' → Reached e'
  | perform {e e' : DBEngine} {fuel : Nat} {tableName : Bytes} {op : TableOp}
      {res : Except Exn Reply} : Reached e →
      e.perform fuel tableName op = some (res, e') → Reached e'

/-- In every reached state a table with rows has a record size. -/
theorem Reached.counted (h : Reached e) : e.Counted := by
  induction h with
  | start => exact counted_empty
  | createTable tableName primaryKey types attributeNames _ ih => exact ih.createTable _ _ _
  | dropTable _ hdrop ih => exact ih.dropTable hdrop
  | perform _ hp ih => exact ih.perform hp

end

end DBEngine

end DbEngine

end Rdbms
