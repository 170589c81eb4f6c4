import Rdbms.Engine.Model

/-!
# Dropping a table

`drop_table` removes the directory of the table and its entry of `m_tables_raw`. Its loops through
the maps of indexes all erase from `m_avl_indexes`, and what they find in the other two maps stays.
So a table is gone without a trace exactly when there was no index on it (`leavesNoTrace_iff`).
-/

namespace Rdbms

namespace DbEngine

section
variable [FloatType] {e e' : DBEngine} {tableName : Bytes}

namespace DBEngine

/-! ## What a trace is -/

/-- The engine without the table: as if it had never had it. -/
def without (e : DBEngine) (tableName : Bytes) : DBEngine :=
  { e with
    tablesRaw := e.tablesRaw.erase tableName
    avlIndexes := KeyedMap.filterKeys e.avlIndexes (·.table ≠ tableName)
    isamIndexes := KeyedMap.filterKeys e.isamIndexes (·.table ≠ tableName)
    sequentialIndexes := KeyedMap.filterKeys e.sequentialIndexes (·.table ≠ tableName) }

/-- The operations on a table. -/
inductive TableOp
  | add (value : List Bytes)
  | remove (key : Attribute)
  | search (key : Attribute) (expr : Record → Bool) (selectedAttributes : List Bytes)
  | rangeSearch (beginKey endKey : Attribute) (expr : Record → Bool)
    (selectedAttributes : List Bytes)
  | load (selectedAttributes : List Bytes)
  | loadIf (selectedAttributes : List Bytes) (expr : Record → Bool)
  | createIndex (columnName : Bytes) (indexType : IndexType)

/-- What an operation gives back. -/
inductive Reply
  | flag (value : Bool)
  | rows (records : List Record)
  | unit

section
variable [Unspecified] [IntCast FloatType.Value]

/-- An operation on the table. -/
def perform (fuel : Nat) (tableName : Bytes) (e : DBEngine) :
    TableOp → Option (Outcome DBEngine Reply)
  | .add value => (e.add fuel tableName value).map fun (res, e) => (res.map .flag, e)
  | .remove key => (e.remove fuel tableName key).map fun (res, e) => (res.map .flag, e)
  | .search key expr selected =>
    (e.search fuel tableName key expr selected).map fun (res, e) => (res.map .rows, e)
  | .rangeSearch beginKey endKey expr selected =>
    (e.rangeSearch fuel tableName beginKey endKey expr selected).map
      fun (res, e) => (res.map .rows, e)
  | .load selected =>
    let (res, e) := e.load tableName selected
    some (res.map .rows, e)
  | .loadIf selected expr =>
    let (res, e) := e.loadIf tableName selected expr
    some (res.map .rows, e)
  | .createIndex columnName indexType =>
    (e.createIndex fuel tableName columnName indexType).map fun (res, e) => (res.map fun _ => .unit, e)

/-- The replies to a sequence of operations on the table. -/
def performAll (fuel : Nat) (tableName : Bytes) :
    DBEngine → List TableOp → Option (List (Except Exn Reply))
  | _, [] => some []
  | e, op :: ops => do
    let (res, e) ← e.perform fuel tableName op
    let results ← performAll fuel tableName e ops
    return res :: results

/-- Dropping the table leaves nothing of it: no entry of the maps is one of its indexes and all
others are untouched, and after the table has been created again every sequence of operations on it
goes as in an engine that never had it. -/
def LeavesNoTrace (e : DBEngine) (tableName : Bytes) : Prop :=
  ∃ e', e.dropTable tableName = some e' ∧
    (∀ index, index.table = tableName →
      index ∉ e'.avlIndexes ∧ index ∉ e'.isamIndexes ∧ index ∉ e'.sequentialIndexes) ∧
    (∀ index, index.table ≠ tableName →
      e'.avlIndexes.lookup index = e.avlIndexes.lookup index ∧
        e'.isamIndexes.lookup index = e.isamIndexes.lookup index ∧
        e'.sequentialIndexes.lookup index = e.sequentialIndexes.lookup index) ∧
    ∀ primaryKey types attributeNames fuel ops,
      performAll fuel tableName
          (e'.createTable tableName primaryKey types attributeNames).2 ops =
        performAll fuel tableName
          ((e.without tableName).createTable tableName primaryKey types attributeNames).2 ops

end

/-- No entry of the maps is an index of the table. -/
def NoIndexes (e : DBEngine) (tableName : Bytes) : Prop :=
  ∀ index, index.table = tableName →
    index ∉ e.avlIndexes ∧ index ∉ e.isamIndexes ∧ index ∉ e.sequentialIndexes

/-! ## `drop_table` -/

/-- Indexes on other tables are not erased. -/
theorem eraseEach_of_noIndexes {indexes : List Index}
    (h : ∀ index ∈ indexes, index.table ≠ tableName)
    (m : KeyedMap Index (IndexContainer AVLIndex)) : eraseEach tableName indexes m = m := by
  induction indexes with
  | nil => rfl
  | cons index indexes ih =>
    rw [eraseEach, List.foldl_cons, if_neg (h index (.head _))]
    exact ih fun x hx => h x (.tail _ hx)

/-- Every index is on another table. -/
theorem NoIndexes.ne {index : Index} (h : e.NoIndexes tableName)
    (hmem : index ∈ e.avlIndexes ∨ index ∈ e.isamIndexes ∨ index ∈ e.sequentialIndexes) :
    index.table ≠ tableName := by
  intro htable
  obtain ⟨h1, h2, h3⟩ := h index htable
  rcases hmem with hmem | hmem | hmem
  · exact h1 hmem
  · exact h2 hmem
  · exact h3 hmem

/-- Without indexes, a table is its entry of `m_tables_raw`. -/
theorem NoIndexes.without_eq (h : e.NoIndexes tableName) :
    e.without tableName = { e with tablesRaw := e.tablesRaw.erase tableName } := by
  have hkeep {I : Type → Type} {m : KeyedMap Index (IndexContainer I)}
      (hm : ∀ index ∈ m, index.table ≠ tableName) :
      KeyedMap.filterKeys m (·.table ≠ tableName) = m :=
    KeyedMap.filterKeys_eq_self fun index hmem => decide_eq_true (hm index hmem)
  rw [without, hkeep fun index hmem => h.ne (.inl hmem),
    hkeep fun index hmem => h.ne (.inr (.inl hmem)),
    hkeep fun index hmem => h.ne (.inr (.inr hmem))]

/-- A table without indexes is dropped whole. -/
theorem NoIndexes.dropTable (h : e.NoIndexes tableName) :
    e.dropTable tableName = some { e with tablesRaw := e.tablesRaw.erase tableName } := by
  have havl : e.avlIndexes.keys.any (·.table = tableName) = false := by
    rw [List.any_eq_false]
    intro index hmem
    simpa using h.ne (.inl (AList.mem_keys.2 hmem))
  have hisam : eraseEach tableName e.isamIndexes.keys e.avlIndexes = e.avlIndexes :=
    eraseEach_of_noIndexes (fun index hmem => h.ne (.inr (.inl (AList.mem_keys.2 hmem)))) _
  have hsequential : eraseEach tableName e.sequentialIndexes.keys e.avlIndexes = e.avlIndexes :=
    eraseEach_of_noIndexes (fun index hmem => h.ne (.inr (.inr (AList.mem_keys.2 hmem)))) _
  simp only [DBEngine.dropTable, havl, hisam, hsequential, Bool.false_eq_true, if_false]

/-- Of the indexes of a table, only those of `m_avl_indexes` are touched. -/
theorem dropTable_keeps (h : e.dropTable tableName = some e') :
    (∀ index ∈ e.avlIndexes, index.table ≠ tableName) ∧ e'.isamIndexes = e.isamIndexes ∧
      e'.sequentialIndexes = e.sequentialIndexes := by
  unfold dropTable at h
  split at h
  · cases h
  · next hany =>
    cases h
    refine ⟨fun index hmem htable => hany ?_, rfl, rfl⟩
    exact List.any_eq_true.2 ⟨index, AList.mem_keys.1 hmem, decide_eq_true htable⟩

/-- A table leaves no trace exactly when there is no index on it. -/
theorem leavesNoTrace_iff [Unspecified] [IntCast FloatType.Value] (e : DBEngine)
    (tableName : Bytes) : e.LeavesNoTrace tableName ↔ e.NoIndexes tableName := by
  constructor
  · rintro ⟨e', hdrop, hgone, -⟩ index htable
    obtain ⟨havl, hisam, hsequential⟩ := dropTable_keeps hdrop
    obtain ⟨-, hisam', hsequential'⟩ := hgone index htable
    rw [hisam] at hisam'
    rw [hsequential] at hsequential'
    exact ⟨fun hmem => havl index hmem htable, hisam', hsequential'⟩
  · intro h
    refine ⟨_, h.dropTable, h, fun index _ => ⟨rfl, rfl, rfl⟩, fun _ _ _ _ _ => ?_⟩
    rw [h.without_eq]

end DBEngine

end

section
attribute [local instance] noFloats firstChoice

local instance : IntCast noFloats.Value := ⟨fun _ => ()⟩

/-- An engine with a table of an `INT` primary key. -/
def indexedTable : DBEngine :=
  (({} : DBEngine).createTable (ascii "t") (ascii "id") [.int] [ascii "id"]).2

/-- The entry of the primary-key index stays when the table is dropped. -/
theorem not_leavesNoTrace : ¬ indexedTable.LeavesNoTrace (ascii "t") := by
  rintro ⟨e', hdrop, hgone, -⟩
  obtain ⟨-, -, hsequential⟩ := DBEngine.dropTable_keeps hdrop
  obtain ⟨-, -, hgone⟩ := hgone ⟨ascii "t", ascii "id"⟩ rfl
  rw [hsequential] at hgone
  exact hgone (by decide)

end

end DbEngine

end Rdbms
