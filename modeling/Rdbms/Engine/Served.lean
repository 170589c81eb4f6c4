import Rdbms.Engine.Replies
import Rdbms.Sequential.LoadRecords

/-!
# Calls that change a table

`add` puts a row into a table that the engine holds, or refuses it because of its key, and
`create_index` tells an index of the rows (`Table.HeldBy.add`, `Table.HeldBy.createIndex`). The engine
holds the table with the row, or with the index, after the call, and the other tables as before.
-/

namespace Rdbms

namespace SequentialIndex
variable {κ : Type} [KeyType κ] {si : SequentialIndex κ}

/-- A file with records is not loaded. -/
theorem bulkInsert_of_ne (h : si.indexFile ≠ []) (sort : List (κ × Int) → List (κ × Int))
    (records : List (κ × Int)) : (si.bulkInsert sort records).2 = si := by
  rw [bulkInsert, if_neg h]
  split_ifs <;> rfl

end SequentialIndex

namespace DbEngine

section
variable [FloatType] {e e' : DBEngine} {tableName other name : Bytes} {table table' : HeapFile}
  {t : Table} {type : FieldType} {row : List Bytes} {rows : List (List Bytes)}
  {si si' : SequentialIndex Int} {i : Nat} {k : Int} {pairs : List (Int × Int)}

/-! ## Other tables -/

/-- Both states have the same of a table. -/
structure DBEngine.SameTable (tableName : Bytes) (e e' : DBEngine) : Prop where
  table : e'.tablesRaw.lookup tableName = e.tablesRaw.lookup tableName
  sequential : ∀ name, e'.sequentialIndexes.lookup ⟨tableName, name⟩ =
    e.sequentialIndexes.lookup ⟨tableName, name⟩
  avl : ∀ name, (⟨tableName, name⟩ : Index) ∈ e'.avlIndexes ↔ ⟨tableName, name⟩ ∈ e.avlIndexes
  isam : ∀ name, e'.isamIndexes.lookup ⟨tableName, name⟩ = e.isamIndexes.lookup ⟨tableName, name⟩

/-- Nothing has changed. -/
theorem DBEngine.SameTable.refl (tableName : Bytes) (e : DBEngine) : SameTable tableName e e :=
  ⟨rfl, fun _ => rfl, fun _ => .rfl, fun _ => rfl⟩

/-- One step after another. -/
theorem DBEngine.SameTable.trans {e'' : DBEngine} (h : DBEngine.SameTable tableName e e')
    (h' : DBEngine.SameTable tableName e' e'') : DBEngine.SameTable tableName e e'' where
  table := h'.table.trans h.table
  sequential name := (h'.sequential name).trans (h.sequential name)
  avl name := (h'.avl name).trans (h.avl name)
  isam name := (h'.isam name).trans (h.isam name)

/-- A table is held as before when other tables change. -/
theorem Table.HeldBy.frame (h : t.HeldBy e tableName table)
    (hsame : DBEngine.SameTable tableName e e') : t.HeldBy e' tableName table where
  lookup := hsame.table.trans h.lookup
  stored := h.stored
  knows name rows hrows := by
    rw [hsame.sequential]
    exact h.knows name rows hrows
  noIndex name hnone := (hsame.sequential name).trans (h.noIndex name hnone)
  pk si hsi := h.pk si (hsame.sequential _ ▸ hsi)
  avl name := (hsame.avl name).trans (h.avl name)
  isam name idx hidx := h.isam name idx (hsame.isam name ▸ hidx)

/-- An operation comes back with a reply of the table, and the engine holds the table after it, and
the others as they were. -/
def Table.Serves [Unspecified] [IntCast FloatType.Value] (t : Table) (e : DBEngine)
    (tableName : Bytes) (op : DBEngine.TableOp) : Prop :=
  ∃ reply t' e' table', Returns (DBEngine.perform · tableName e op) (reply, e') ∧
    t.Answers op reply t' ∧ t'.HeldBy e' tableName table' ∧
    ∀ other, other ≠ tableName → DBEngine.SameTable other e e'

/-! ## Rows -/

/-- The key of a row that can be written. -/
theorem Table.StoredIn.getKey (h : t.StoredIn table)
    (hrow : rowCodec.Accepts t.schema.types row) :
    ∃ value k, table.getKey { fields := row } = .ok (.int, ⟨t.schema.primaryKey, value⟩) ∧
      stoi value = .ok k ∧ t.schema.key row = .ok k := by
  have hmem : t.schema.primaryKey ∈ t.schema.names := Schema.mem_of_type? t.schema.int
  have hidx : table.getKeyIdx = .ok (t.schema.column t.schema.primaryKey) := by
    rw [HeapFile.getKeyIdx, h.primaryKey]
    exact h.getAttributeIdx hmem
  obtain ⟨field, bytes, hfield, hencode⟩ := hrow.getElem? t.schema.int
  have hencode : (stoi field).map _ = .ok bytes := hencode
  have hvector : HeapFile.vectorAt row (t.schema.column t.schema.primaryKey) = .ok field :=
    HeapFile.vectorAt_eq_ok.2 hfield
  have htype : HeapFile.vectorAt table.attributeTypes (t.schema.column t.schema.primaryKey) =
      .ok .int := HeapFile.vectorAt_eq_ok.2 (h.types ▸ t.schema.int)
  have hname : HeapFile.vectorAt table.attributeNames (t.schema.column t.schema.primaryKey) =
      .ok t.schema.primaryKey := by
    rw [HeapFile.vectorAt_eq_ok, h.names]
    exact List.getElem?_idxOf hmem
  cases hk : stoi field with
  | error ex =>
    rw [hk] at hencode
    cases hencode
  | ok k =>
    refine ⟨field, k, ?_, hk, ?_⟩
    · simp only [HeapFile.getKey, hidx, hvector, htype, hname, bind, Except.bind, pure, Except.pure]
    · rw [Schema.key, Record.intAt, hvector]
      exact hk

omit [FloatType] in
/-- The numbers in a column of rows. -/
theorem mem_column_iff {keys : List Int} (h : List.Forall₂
      (fun row k => ({ fields := row } : Record).intAt i = .ok k) rows keys) :
    k ∈ keys ↔ ∃ row ∈ rows, ({ fields := row } : Record).intAt i = .ok k := by
  have hmap : rows.map (fun row => ({ fields := row } : Record).intAt i) = keys.map Except.ok := by
    rwa [← List.forall₂_eq_eq_eq, List.forall₂_map_left_iff, List.forall₂_map_right_iff]
  rw [← List.mem_map_of_injective (fun _ _ => Except.ok.inj), ← hmap, List.mem_map]

omit [FloatType] in
/-- The positions of rows depend on the columns only. -/
theorem DBEngine.Knows.of_types (h : DBEngine.Knows table i rows si)
    (htypes : table'.attributeTypes = table.attributeTypes) : DBEngine.Knows table' i rows si where
  mirrors := by
    obtain ⟨keys, hkeys, hholds⟩ := h.mirrors
    have hentries : DBEngine.entries table' keys = DBEngine.entries table keys := by
      refine List.map_congr_left fun p _ => ?_
      rw [HeapFile.pos_of_types htypes]
    exact ⟨keys, hkeys, hentries ▸ hholds⟩
  new := h.new

/-- A row is stored. -/
theorem Table.StoredIn.add (h : t.StoredIn table) (hrow : rowCodec.Accepts t.schema.types row)
    (hnew : ∀ other ∈ t.rows, t.schema.key other ≠ t.schema.key row) :
    ∃ pos table', table.add { fields := row } = (.ok pos, table') ∧
      (t.insert row hrow hnew).StoredIn table' := by
  obtain ⟨buffer, henc⟩ := hrow.encodes
  have hwrite : ({ fields := row } : Record).write table.attributeTypes = .ok buffer := by
    rw [h.types]
    exact Record.write_eq_ok.2 ⟨henc, Nat.lt_succ_of_le t.schema.fits⟩
  refine ⟨_, _, HeapFile.add_of_closed h.closed hwrite, ?_⟩
  exact {
    names := h.names
    types := h.types
    primaryKey := h.primaryKey
    closed := h.closed
    stores := by
      have hrows : (t.insert row hrow hnew).rows = t.rows ++ [row] := rfl
      rw [hrows, List.map_append]
      exact h.stores.append hwrite _
    count := by
      have hrows : (t.insert row hrow hnew).rows = t.rows ++ [row] := rfl
      rw [hrows, List.length_append]
      exact congrArg (· + 1) h.count }

/-- The row is in the heap file and its key in the index. -/
theorem Table.HeldBy.inserted (h : t.HeldBy e tableName table)
    (hrow : rowCodec.Accepts t.schema.types row)
    (hnew : ∀ other ∈ t.rows, t.schema.key other ≠ t.schema.key row)
    (hstored : (t.insert row hrow hnew).StoredIn table')
    (hmirrors : DBEngine.Mirrors table' (t.schema.column t.schema.primaryKey) (t.rows ++ [row]) si')
    (hpk : si'.pk = true) :
    (t.insert row hrow hnew).HeldBy ((e.setSequential ⟨tableName, t.schema.primaryKey⟩
      (.int si')).setTable tableName table') tableName table' := by
  obtain ⟨si, hsi, -⟩ := h.knows _ _ t.primary
  have hindex : (e.setSequential ⟨tableName, t.schema.primaryKey⟩ (.int si')).sequentialIndexes.lookup
      ⟨tableName, t.schema.primaryKey⟩ = some (.int si') :=
    KeyedMap.lookup_replace_self (by simp [hsi])
  have hknown {name : Bytes} (hname : name ≠ t.schema.primaryKey) :
      (t.insert row hrow hnew).indexes.lookup name = t.indexes.lookup name :=
    KeyedMap.lookup_replace_ne hname
  have hentry {name : Bytes} (hname : name ≠ t.schema.primaryKey) :
      (e.setSequential ⟨tableName, t.schema.primaryKey⟩ (.int si')).sequentialIndexes.lookup
        ⟨tableName, name⟩ = e.sequentialIndexes.lookup ⟨tableName, name⟩ :=
    KeyedMap.lookup_replace_ne fun heq => hname (Index.mk.inj heq).2
  exact {
    lookup := DBEngine.lookup_setTable_self h.lookup
    stored := hstored
    knows := by
      intro name rows hrows
      by_cases hname : name = t.schema.primaryKey
      · subst hname
        cases (t.insert row hrow hnew).primary.symm.trans hrows
        refine ⟨si', hindex, hmirrors, fun hnil => ?_⟩
        exact absurd hnil (List.append_ne_nil_of_right_ne_nil _ (List.cons_ne_nil _ _))
      · rw [hknown hname] at hrows
        obtain ⟨si1, hsi1, hknows⟩ := h.knows name rows hrows
        refine ⟨si1, (hentry hname).trans hsi1, hknows.of_types ?_⟩
        exact hstored.types.trans h.stored.types.symm
    noIndex := by
      intro name hnone
      have hname : name ≠ t.schema.primaryKey := by
        rintro rfl
        cases (t.insert row hrow hnew).primary.symm.trans hnone
      exact (hentry hname).trans (h.noIndex name ((hknown hname).symm.trans hnone))
    pk := by
      intro si1 hsi1
      cases hindex.symm.trans hsi1
      exact hpk
    avl := h.avl
    isam := h.isam }

section
variable [Unspecified] [IntCast FloatType.Value]

/-- A row that can be written is added, or there is one with its key. -/
theorem Table.HeldBy.add (h : t.HeldBy e tableName table)
    (hrow : rowCodec.Accepts t.schema.types row) (hplaced : e.KeyPlaced tableName table row) :
    t.Serves e tableName (.add row) := by
  obtain ⟨value, k, hkey, hvalue, hk⟩ := h.stored.getKey hrow
  obtain ⟨si, hsi, hknows⟩ := h.knows _ _ t.primary
  have hplace := hplaced k si ⟨_, hkey, hvalue⟩ (h.stored.primaryKey.symm ▸ hsi)
  obtain ⟨keys, hkeys, hholds⟩ := hknows.mirrors
  have hadd := DBEngine.add_eq h.lookup hkey hvalue hsi
  have hin : (∃ p ∈ DBEngine.entries table keys, p.1 = k) ↔
      ∃ other ∈ t.rows, t.schema.key other = t.schema.key row := by
    rw [DBEngine.mem_keys_entries, mem_column_iff hkeys, hk]
    rfl
  rcases hholds.add_pk (h.pk si hsi) hplace table.nextPos with
    ⟨hold, ex, hret⟩ | ⟨hfresh, records, si', hret, hpk, hholds'⟩
  · obtain rfl := SequentialIndex.add_error_eq hret
    obtain ⟨other, hother, hsame⟩ := hin.1 hold
    have hcall := (hret.map _).congr hadd
    have hunchanged : e.setSequential ⟨tableName, t.schema.primaryKey⟩ (.int si) = e := by
      rw [DBEngine.setSequential, KeyedMap.replace_eq_self hsi]
    simp only [Except.map, hunchanged, DBEngine.addRow] at hcall
    exact ⟨_, t, e, table, hcall.map _, .refused hother hsame, h, fun _ _ => .refl _ _⟩
  · have hnew : ∀ other ∈ t.rows, t.schema.key other ≠ t.schema.key row := by
      intro other hother hsame
      obtain ⟨p, hp, hkey'⟩ := hin.2 ⟨other, hother, hsame⟩
      exact hfresh p hp hkey'
    obtain ⟨pos, table', hstore, hstored⟩ := h.stored.add hrow hnew
    have hend : table.nextPos = table.pos t.rows.length := by
      rw [h.stored.stores.nextPos, List.length_map]
    have hmirrors := hknows.mirrors.add (hstored.types.trans h.stored.types.symm) hk hplace
      (hend ▸ hret)
    have hreported : records.isEmpty = false := by
      obtain ⟨fuel, hfuel⟩ := hret.exists
      exact List.isEmpty_eq_false_iff.2 (SequentialIndex.records_ne_nil hfuel)
    have htable : (e.setSequential ⟨tableName, t.schema.primaryKey⟩ (.int si')).tableAt tableName =
        .ok table := DBEngine.tableAt_of_lookup h.lookup
    have hcall := (hret.map _).congr hadd
    simp only [Except.map, hreported, Bool.not_false, DBEngine.addRow, htable, hstore] at hcall
    refine ⟨_, t.insert row hrow hnew, _, table', hcall.map _, .added hrow hnew,
      h.inserted hrow hnew hstored hmirrors hpk, fun other hne => ?_⟩
    refine ⟨DBEngine.lookup_setTable_ne hne, fun name => ?_, fun name => .rfl, fun name => rfl⟩
    exact KeyedMap.lookup_replace_ne fun heq => hne (Index.mk.inj heq).1

end

end

end DbEngine

end Rdbms
