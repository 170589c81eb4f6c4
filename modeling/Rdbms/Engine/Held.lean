import Rdbms.Engine.Consistent
import Rdbms.Engine.Database

/-!
# Tables in the engine

The engine holds a table as a heap file with its rows, and for each of its indexes an index of
integers that mirrors the rows that this index knows (`Table.HeldBy`). Loading and searching then
give the replies of the table, and leave the engine as it is.
-/

namespace Rdbms

namespace DbEngine

section
variable [FloatType] {e e' : DBEngine} {tableName name : Bytes} {table : HeapFile} {t : Table}
  {q : RangeQuery} {type : FieldType} {rows : List (List Bytes)} {si : SequentialIndex Int}
  {selected : List Bytes} {expr : Record → Bool} {i : Nat}

/-! ## The heap file -/

/-- The selected attributes are columns of the table, in the order of its schema. -/
def HeapFile.Selects (table : HeapFile) (selected : List Bytes) : Prop :=
  (∀ name ∈ selected, name ∈ table.attributeNames) ∧
    (selected.map table.attributeNames.idxOf).Pairwise (· ≤ ·)

omit [FloatType] in
/-- A column with a type is one. -/
theorem Schema.mem_of_type? {s : Schema} (h : s.type? name = some type) : name ∈ s.names := by
  have hlt := (List.getElem?_eq_some_iff.1 h).1
  rw [s.length] at hlt
  exact List.idxOf_lt_length_iff.1 hlt

omit [FloatType] in
/-- Every column has a type. -/
theorem Schema.exists_type? {s : Schema} (h : name ∈ s.names) : ∃ type, s.type? name = some type :=
  ⟨_, List.getElem?_eq_getElem (s.length ▸ List.idxOf_lt_length_of_mem h)⟩

/-- A heap file with the schema and the rows of the table. -/
structure Table.StoredIn (t : Table) (table : HeapFile) : Prop where
  names : table.attributeNames = t.schema.names
  types : table.attributeTypes = t.schema.types
  primaryKey : table.primaryKey = t.schema.primaryKey
  closed : table.leftOpen = none
  stores : table.Stores (t.rows.map fun row => { fields := row })
  count : table.recordCount = t.rows.length

namespace Table.StoredIn

/-- The heap knows the place of a column. -/
theorem getAttributeIdx (h : t.StoredIn table) (hname : name ∈ t.schema.names) :
    table.getAttributeIdx name = .ok (t.schema.column name) := by
  have hfirst : name ∈ table.attributeNames.take 256 := by
    rw [h.names, List.take_of_length_le t.schema.few]
    exact hname
  rw [HeapFile.getAttributeIdx_eq_idxOf hfirst, h.names]
  rfl

/-- The heap knows the type of a column. -/
theorem getType (h : t.StoredIn table) (htype : t.schema.type? name = some type) :
    table.getType name = .ok type := by
  refine bind_eq_ok.2 ⟨_, h.getAttributeIdx (Schema.mem_of_type? htype), ?_⟩
  rw [HeapFile.vectorAt_eq_ok, h.types]
  exact htype

/-- The heap throws for a name that is no column. -/
theorem getType_of_not_mem (h : t.StoredIn table) (hname : name ∉ t.schema.names) :
    table.getType name = .error (.runtimeError "Attribute not found") := by
  have hfind : table.attributeNames.findIdx? (· = name) = none := by
    rw [List.findIdx?_eq_none_iff, h.names]
    exact fun x hx => decide_eq_false fun heq => hname (heq ▸ hx)
  rw [HeapFile.getType, HeapFile.getAttributeIdx, hfind]
  rfl

/-- Rows of the table have a field for each column. -/
theorem length_records {record : Record} (hrows : ∀ row ∈ rows, row ∈ t.rows)
    (hrecord : record ∈ t.records rows) : record.fields.length = t.schema.names.length := by
  obtain ⟨row, hrow, rfl⟩ := List.mem_map.1 hrecord
  exact (t.accepts row (hrows row hrow)).length_normRow.trans t.schema.length

/-- Selecting columns. -/
theorem filter (h : t.StoredIn table) (hselected : table.Selects selected) {records : List Record}
    (hwidth : ∀ record ∈ records, record.fields.length = t.schema.names.length) :
    table.filter records selected = .ok (records.map (t.schema.project selected)) := by
  obtain ⟨hnames, hsorted⟩ := hselected
  have hfirst : ∀ name ∈ selected, name ∈ table.attributeNames.take 256 := by
    rwa [List.take_of_length_le (h.names ▸ t.schema.few)]
  rw [HeapFile.filter_eq_project hfirst hsorted]
  refine congrArg Except.ok (List.map_congr_left fun record hrecord => ?_)
  have hproject := HeapFile.project_eq_zip (h.names ▸ t.schema.nodup) hnames
    ((hwidth record hrecord).trans (congrArg List.length h.names.symm))
  rw [hproject, h.names]
  rfl

/-- The heap gives all rows. -/
theorem load (h : t.StoredIn table) : table.load = (t.records t.rows, table) := by
  have hcount : table.recordCount = (t.rows.map fun row => ({ fields := row } : Record)).length := by
    rw [List.length_map, h.count]
  rw [h.stores.load h.closed hcount, h.types, List.map_map]
  rfl

/-- The heap gives a row at its position. -/
theorem read (h : t.StoredIn table) {n : Nat} {row : List Bytes} (hrow : t.rows[n]? = some row) :
    table.read (table.pos n) = (({ fields := row } : Record).norm t.schema.types, table) := by
  obtain ⟨hn, rfl⟩ := List.getElem?_eq_some_iff.1 hrow
  have hn' : n < (t.rows.map fun row => ({ fields := row } : Record)).length := by
    rwa [List.length_map]
  rw [h.stores.read h.closed hn', List.getElem_map, h.types]

/-- All rows can be read. -/
theorem readable (h : t.StoredIn table) : table.Readable := by
  refine .inr ⟨h.closed, ?_⟩
  have hend : (table.data.length : Int) = table.pos _ := h.stores.nextPos
  rw [HeapFile.pos, List.length_map, Nat.cast_inj] at hend
  rw [hend, h.count]

end Table.StoredIn

/-! ## The parts of a table -/

/-- A sequential index that mirrors the rows that it knows. One that knows none is as it was made. -/
structure DBEngine.Knows (table : HeapFile) (i : Nat) (rows : List (List Bytes))
    (si : SequentialIndex Int) : Prop where
  mirrors : DBEngine.Mirrors table i rows si
  new : rows = [] → si = .createFile si.pk

/-- The engine holds the table: its heap file, and indexes with the rows that they know. -/
structure Table.HeldBy (t : Table) (e : DBEngine) (tableName : Bytes) (table : HeapFile) : Prop where
  lookup : e.tablesRaw.lookup tableName = some table
  stored : t.StoredIn table
  knows : ∀ name rows, t.indexes.lookup name = some rows →
    ∃ si, e.sequentialIndexes.lookup ⟨tableName, name⟩ = some (.int si) ∧
      DBEngine.Knows table (t.schema.column name) rows si
  noIndex : ∀ name, t.indexes.lookup name = none →
    e.sequentialIndexes.lookup ⟨tableName, name⟩ = none
  pk : ∀ si, e.sequentialIndexes.lookup ⟨tableName, t.schema.primaryKey⟩ = some (.int si) →
    si.pk = true
  avl : ∀ name, (⟨tableName, name⟩ : Index) ∈ e.avlIndexes ↔ name ∈ t.avl
  isam : ∀ name idx, e.isamIndexes.lookup ⟨tableName, name⟩ = some idx → ∃ isam, idx = .int isam

/-! ## The rows that an index finds -/

omit [FloatType] in
/-- When every row has a number. -/
theorem numbered_eq {keys : List Int}
    (h : List.Forall₂ (fun row k => ({ fields := row } : Record).intAt i = .ok k) rows keys) :
    numbered i rows = keys.zip rows := by
  induction h with
  | nil => rfl
  | cons hk _ ih =>
    rw [List.zip_cons_cons, ← ih, numbered, List.filterMap_cons, hk]
    rfl

/-- Rows of a table with their numbers in a column and their places, in the order of the numbers. -/
structure Table.Places (t : Table) (placed : List ((Int × List Bytes) × Nat)) : Prop where
  sorted : placed.Pairwise fun x y => x.1.1 ≤ y.1.1
  row : ∀ x ∈ placed, t.rows[x.2]? = some x.1.2

/-- No rows, no places. -/
theorem Table.places_nil (t : Table) : t.Places [] := ⟨.nil, fun x hx => by cases hx⟩

/-- Some of the places. -/
theorem Table.Places.filter {placed : List ((Int × List Bytes) × Nat)} (h : t.Places placed)
    (p : (Int × List Bytes) × Nat → Bool) : t.Places (placed.filter p) where
  sorted := h.sorted.filter p
  row x hx := h.row x (List.mem_of_mem_filter hx)

/-- An index that mirrors the first rows of a table answers with the places of those with a number
between two. -/
theorem DBEngine.Mirrors.found (h : DBEngine.Mirrors table i rows si) (hfirst : rows <+: t.rows) :
    ∃ placed : List ((Int × List Bytes) × Nat), t.Places placed ∧
      (placed.map (·.1)).Perm (numbered i rows) ∧
      (∀ lo hi, Returns (si.rangeSearch · lo hi)
        ((placed.filter fun x => lo ≤ x.1.1 ∧ x.1.1 ≤ hi).map fun x => table.pos x.2)) ∧
      ∀ k, Returns (si.search · k)
        ((placed.filter fun x => k ≤ x.1.1 ∧ x.1.1 ≤ k).map fun x => table.pos x.2) := by
  obtain ⟨keys, hkeys, c, m, hwf, hm, hperm⟩ := h
  let place (x : (Int × List Bytes) × Nat) : Int × Int := (x.1.1, table.pos x.2)
  have hzip : (keys.zip rows).map (·.1) = keys := List.map_fst_zip hkeys.length_eq.ge
  have hentries : DBEngine.entries table keys = (numbered i rows).zipIdx.map place := by
    rw [numbered_eq hkeys, DBEngine.entries]
    conv_lhs => rw [← hzip]
    rw [List.zipIdx_map, List.map_map]
    rfl
  rw [hentries] at hperm
  obtain ⟨placed, hpairs, hplaced⟩ : ∃ placed : List _, m.pairs = placed.map place ∧
      placed.Perm (numbered i rows).zipIdx := by
    have hcomp := congrFun₂ (List.eq_map_comp_perm place) m.pairs (numbered i rows).zipIdx
    exact hcomp.mpr hperm
  have hfilter : ∀ lo hi, ((m.pairs.filter fun p => lo ≤ p.1 ∧ p.1 ≤ hi).map (·.2)) =
      (placed.filter fun x => lo ≤ x.1.1 ∧ x.1.1 ≤ hi).map fun x => table.pos x.2 := by
    intro lo hi
    rw [hpairs, List.filter_map, List.map_map]
    rfl
  refine ⟨placed, ⟨?_, fun x hx => ?_⟩, ?_, fun lo hi => ?_, fun k => ?_⟩
  · have hsorted := m.pairs_sorted
    rw [hpairs, List.pairwise_map] at hsorted
    exact hsorted
  · have hx' := hplaced.subset hx
    rw [numbered_eq hkeys, List.mem_zipIdx_iff_getElem?, List.getElem?_zip_eq_some] at hx'
    obtain ⟨rest, hrest⟩ := hfirst
    rw [← hrest]
    exact (List.getElem?_append_left (List.getElem?_eq_some_iff.1 hx'.2).1).trans hx'.2
  · have hmap := hplaced.map (·.1)
    rwa [List.zipIdx_map_fst] at hmap
  · rw [← hfilter, ← m.between_eq_pairs]
    exact SequentialIndex.rangeSearch_returns hwf.linked hm lo hi
  · have hvalues : m.values k = (m.pairs.filter fun p => k ≤ p.1 ∧ p.1 ≤ k).map (·.2) := by
      rw [Multimap.values_eq_pairs]
      refine congrArg (List.map _) (List.filter_congr fun p _ => decide_eq_decide.2 ?_)
      exact ⟨fun heq => ⟨heq.ge, heq.le⟩, fun hle => hle.2.antisymm hle.1⟩
    rw [← hfilter, ← hvalues]
    exact SequentialIndex.search_returns hwf.linked hm k

/-- Reading the rows at their places. -/
theorem Table.Places.readRows {placed : List ((Int × List Bytes) × Nat)} (h : t.Places placed)
    (hstored : t.StoredIn table) (expr : Record → Bool) :
    DBEngine.readRows expr (placed.map fun x => table.pos x.2) table =
      ((t.records (placed.map (·.1.2))).filter expr, table) := by
  obtain ⟨-, hrow⟩ := h
  induction placed with
  | nil => rfl
  | cons x placed ih =>
    have hread := hstored.read (hrow x (.head _))
    have htail := ih fun y hy => hrow y (.tail _ hy)
    rw [List.map_cons, DBEngine.readRows, hread]
    simp only [htail, Table.records, List.map_cons, List.filter_cons]

/-- The heap of the table is the one that is there. -/
theorem Table.HeldBy.setTable (h : t.HeldBy e tableName table) : e.setTable tableName table = e := by
  rw [DBEngine.setTable, KeyedMap.replace_eq_self h.lookup]

/-- The records at the places of rows. -/
theorem Table.HeldBy.answer (h : t.HeldBy e tableName table) (hselected : table.Selects selected)
    {placed : List ((Int × List Bytes) × Nat)} (hplaced : t.Places placed) (expr : Record → Bool) :
    e.answer tableName table (placed.map fun x => table.pos x.2) expr selected =
      (.ok (((t.records ((placed.map (·.1)).map (·.2))).filter expr).map
        (t.schema.project selected)), e) := by
  rw [List.map_map]
  have hwidth : ∀ record ∈ (t.records (placed.map (·.1.2))).filter expr,
      record.fields.length = t.schema.names.length := by
    intro record hrecord
    refine StoredIn.length_records (fun row hrow => ?_) (List.mem_of_mem_filter hrecord)
    obtain ⟨x, hx, rfl⟩ := List.mem_map.1 hrow
    exact List.mem_of_getElem? (hplaced.row x hx)
  rw [DBEngine.answer, hplaced.readRows h.stored]
  simp only
  rw [h.stored.filter hselected hwidth, h.setTable]
  rfl

end

end DbEngine

end Rdbms
