import Rdbms.Engine.Add
import Rdbms.Heap.Load

/-!
# Selecting columns and rows

`sort_attributes` puts the selected columns into the order of the schema, and `filter` then cuts the
rows down to them, in whatever order they were named (`selectColumns_eq`). `load` with a predicate
cuts the rows down, drops those that do not satisfy the predicate, and cuts down what is left once
more. That is projection after selection when the predicate does not look at the columns that are
left out, and the columns selected are the first ones (`loadIf_projects_iff`).
-/

namespace Rdbms

namespace DbEngine

section
variable [FloatType] {e : DBEngine} {tableName : Bytes} {table : HeapFile}
  {selectedAttributes attributes : List Bytes} {expr : Record → Bool}

/-! ## The order of the columns -/

namespace DBEngine

/-- `sort_attributes`, and then `filter`. -/
def selectColumns [Unspecified] (e : DBEngine) (tableName : Bytes) (table : HeapFile)
    (records : List Record) (attributes : List Bytes) : Except Exn (List Record) := do
  table.filter records (← e.sortAttributes tableName attributes)

/-- The columns in the order of the schema. -/
theorem sortAttributes_sorted [Unspecified] (htable : e.tablesRaw.lookup tableName = some table)
    (hnames : ∀ name ∈ attributes, name ∈ table.attributeNames.take 256) :
    ∃ sorted, e.sortAttributes tableName attributes = .ok sorted ∧ sorted.Perm attributes ∧
      (sorted.map table.attributeNames.idxOf).Pairwise (· ≤ ·) := by
  rw [sortAttributes]
  split_ifs with hlen
  · refine ⟨attributes, rfl, .refl _, ?_⟩
    rw [List.pairwise_map]
    match attributes, hlen with
    | [], _ => exact .nil
    | [name], _ => exact List.pairwise_singleton _ name
  · rw [tableAt_of_lookup htable]
    have hperm := Unspecified.sort_perm (fun name => (table.getAttributeIdx name).toOption.getD 0)
      attributes
    refine ⟨_, ?_, hperm, ?_⟩
    · show (do
        let _ ← attributes.mapM table.getAttributeIdx
        return Unspecified.sort _ attributes) = _
      rw [HeapFile.mapM_ok fun name hname =>
        HeapFile.getAttributeIdx_eq_idxOf (hnames name hname)]
      rfl
    · rw [List.pairwise_map]
      refine (Unspecified.sort_sorted _ attributes).imp_of_mem fun {a b} ha hb hab => ?_
      rw [HeapFile.getAttributeIdx_eq_idxOf (hnames a (hperm.mem_iff.1 ha)),
        HeapFile.getAttributeIdx_eq_idxOf (hnames b (hperm.mem_iff.1 hb))] at hab
      exact hab

/-- The columns that are left do not depend on the order of their names. -/
theorem selectColumns_project [Unspecified] (htable : e.tablesRaw.lookup tableName = some table)
    (hnames : ∀ name ∈ attributes, name ∈ table.attributeNames.take 256)
    (records : List Record) :
    e.selectColumns tableName table records attributes =
      .ok (records.map (table.project attributes)) := by
  obtain ⟨sorted, hsort, hperm, hsorted⟩ := sortAttributes_sorted htable hnames
  have hmem : ∀ name, name ∈ sorted ↔ name ∈ attributes := fun name => hperm.mem_iff
  rw [selectColumns, hsort, ← HeapFile.project_congr hmem]
  exact HeapFile.filter_eq_project (fun name hname => hnames name ((hmem name).1 hname)) hsorted
    records

/-- Whatever the order in which the columns are named, and however often: each record with exactly
the selected columns, in the order of the schema, and the records in their order. -/
theorem selectColumns_eq [Unspecified] (htable : e.tablesRaw.lookup tableName = some table)
    (hnodup : table.attributeNames.Nodup) (hle : table.attributeNames.length ≤ 256)
    (hnames : ∀ name ∈ attributes, name ∈ table.attributeNames) {records : List Record}
    (hwidth : ∀ record ∈ records, record.fields.length = table.attributeNames.length) :
    e.selectColumns tableName table records attributes =
        .ok (records.map fun record =>
          { record with
            fields :=
              ((table.attributeNames.zip record.fields).filter (·.1 ∈ attributes)).map (·.2) }) ∧
      ∀ attributes', (∀ name, name ∈ attributes' ↔ name ∈ attributes) →
        e.selectColumns tableName table records attributes' =
          e.selectColumns tableName table records attributes := by
  have hfirst : ∀ name ∈ attributes, name ∈ table.attributeNames.take 256 := by
    rwa [List.take_of_length_le hle]
  refine ⟨?_, fun attributes' hsame => ?_⟩
  · rw [selectColumns_project htable hfirst]
    exact congrArg Except.ok (List.map_congr_left fun record hrecord =>
      HeapFile.project_eq_zip hnodup hnames (hwidth record hrecord))
  · rw [selectColumns_project htable hfirst, selectColumns_project htable fun name hname =>
      hfirst name ((hsame name).1 hname), HeapFile.project_congr hsame]

/-! ## `load` with a predicate -/

/-- The rows that satisfy the predicate, cut down to the selected columns. -/
def Projects (e : DBEngine) (tableName : Bytes) (table : HeapFile)
    (selectedAttributes : List Bytes) (expr : Record → Bool) : Prop :=
  (e.loadIf tableName selectedAttributes expr).1 =
    .ok ((table.load.1.filter expr).map (table.project selectedAttributes))

/-- `load` cuts all rows down. -/
theorem load_eq (htable : e.tablesRaw.lookup tableName = some table)
    (hnames : ∀ name ∈ selectedAttributes, name ∈ table.attributeNames.take 256)
    (hsorted : (selectedAttributes.map table.attributeNames.idxOf).Pairwise (· ≤ ·)) :
    e.load tableName selectedAttributes =
      (.ok (table.load.1.map (table.project selectedAttributes)),
        e.setTable tableName table.load.2) := by
  have hnames' : table.load.2.attributeNames = table.attributeNames := table.load_attributes.1
  rw [DBEngine.load, tableAt_of_lookup htable]
  simp only
  rw [HeapFile.filter_eq_project (hnames' ▸ hnames) (hnames' ▸ hsorted),
    HeapFile.project_of_names hnames']

/-- The rows are cut down, those that do not satisfy the predicate are dropped, and the others are
cut down again. -/
theorem loadIf_eq (htable : e.tablesRaw.lookup tableName = some table)
    (hnames : ∀ name ∈ selectedAttributes, name ∈ table.attributeNames.take 256)
    (hsorted : (selectedAttributes.map table.attributeNames.idxOf).Pairwise (· ≤ ·))
    (expr : Record → Bool) :
    (e.loadIf tableName selectedAttributes expr).1 =
      .ok ((table.load.1.filter fun row => expr (table.project selectedAttributes row)).map
        fun row => table.project selectedAttributes (table.project selectedAttributes row)) := by
  have hnames' : table.load.2.attributeNames = table.attributeNames := table.load_attributes.1
  have hat : (e.setTable tableName table.load.2).tableAt tableName = .ok table.load.2 :=
    tableAt_of_lookup (lookup_setTable_self htable)
  rw [DBEngine.loadIf, load_eq htable hnames hsorted]
  simp only [hat]
  rw [HeapFile.filter_eq_project (hnames' ▸ hnames) (hnames' ▸ hsorted),
    HeapFile.project_of_names hnames', List.filter_map, List.map_map]
  rfl

/-- `load` with a predicate gives the rows that satisfy it, cut down to the selected columns, exactly
when the predicate holds of each row as it does of the row cut down, and either the selected columns
are the first ones or no row that can be read satisfies the predicate. -/
theorem loadIf_projects_iff (htable : e.tablesRaw.lookup tableName = some table)
    (hnames : ∀ name ∈ selectedAttributes, name ∈ table.attributeNames.take 256)
    (hsorted : (selectedAttributes.map table.attributeNames.idxOf).Pairwise (· ≤ ·))
    (expr : Record → Bool) :
    e.Projects tableName table selectedAttributes expr ↔
      (∀ row ∈ table.load.1, expr row = expr (table.project selectedAttributes row)) ∧
        (table.SelectsFirst selectedAttributes ∨
          ∀ row ∈ table.load.1, expr row = true → row.fields = []) := by
  rw [Projects, loadIf_eq htable hnames hsorted, Except.ok.injEq]
  have hwidth := table.load_fields
  generalize table.load.1 = rows at hwidth
  by_cases hfirst : table.SelectsFirst selectedAttributes
  · have htwice : (rows.filter fun row => expr (table.project selectedAttributes row)).map
          (fun row => table.project selectedAttributes (table.project selectedAttributes row)) =
        (rows.filter fun row => expr (table.project selectedAttributes row)).map
          (table.project selectedAttributes) :=
      List.map_congr_left fun row hrow =>
        HeapFile.project_project hfirst (hwidth row (List.mem_filter.1 hrow).1)
    rw [htwice, map_filter_eq_iff]
    exact ⟨fun h => ⟨h, .inl hfirst⟩, And.left⟩
  · constructor
    · intro heq
      have hnil : ∀ row ∈ rows, expr row = true → row.fields = [] := by
        intro row hrow hexpr
        by_contra hne
        have hlen := (hwidth row hrow).resolve_left hne
        have hmem : table.project selectedAttributes row ∈
            (rows.filter expr).map (table.project selectedAttributes) :=
          List.mem_map_of_mem (List.mem_filter.2 ⟨hrow, hexpr⟩)
        rw [← heq] at hmem
        obtain ⟨row', hrow', hsame⟩ := List.mem_map.1 hmem
        have hlt := HeapFile.length_project_project hfirst hlen
        rcases hwidth row' (List.mem_filter.1 hrow').1 with hnil' | hlen'
        · rw [HeapFile.project_of_nil hnil', HeapFile.project_of_nil hnil'] at hsame
          rw [← hsame, hnil'] at hlt
          exact absurd hlt (Nat.not_lt_zero _)
        · have hlt' := HeapFile.length_project_project hfirst hlen'
          have hk : (table.project selectedAttributes row').fields.length =
              (table.project selectedAttributes row).fields.length :=
            (length_keep _ _).trans (by rw [hlen', ← hlen]; exact (length_keep _ _).symm)
          rw [hsame, hk] at hlt'
          exact absurd hlt' (lt_irrefl _)
      refine ⟨eq_of_length_filter (fun row hrow hexpr => ?_) ?_, .inr hnil⟩
      · rwa [HeapFile.project_of_nil (hnil row hrow hexpr)]
      · have := congrArg List.length heq
        rwa [List.length_map, List.length_map] at this
    · rintro ⟨hexpr, hor⟩
      have hnil := hor.resolve_left hfirst
      rw [← List.filter_congr hexpr]
      refine List.map_congr_left fun row hrow => ?_
      obtain ⟨hmem, hrow⟩ := List.mem_filter.1 hrow
      rw [HeapFile.project_of_nil (hnil row hmem hrow), HeapFile.project_of_nil (hnil row hmem hrow)]

end DBEngine

end

section
attribute [local instance] noFloats firstChoice

/-- The second column, the first and the second again. -/
theorem selectColumns_eq_sample : ∃ (e : DBEngine) (table : HeapFile),
    e.tablesRaw.lookup (ascii "t") = some table ∧
    table.attributeNames = [ascii "id", ascii "n"] ∧
    e.selectColumns (ascii "t") table [{ fields := [ascii "1", ascii "2"] }]
      [ascii "n", ascii "id", ascii "n"] = .ok [{ fields := [ascii "1", ascii "2"] }] := by
  let table : HeapFile :=
    { attributeNames := [ascii "id", ascii "n"], attributeTypes := [.int, .int]
      primaryKey := ascii "id" }
  let e : DBEngine := { tablesRaw := KeyedMap.emplace ∅ (ascii "t") table }
  refine ⟨e, table, rfl, rfl, ?_⟩
  exact (DBEngine.selectColumns_eq (rfl : e.tablesRaw.lookup (ascii "t") = some table) (by decide)
    (by decide) (by decide) (by decide)).1

/-- The first column of the rows with a certain number in it. -/
theorem loadIf_projects_iff_sample : ∃ (e : DBEngine) (table : HeapFile),
    e.tablesRaw.lookup (ascii "t") = some table ∧
    table.load.1 = [{ fields := [ascii "1", ascii "2"] }] ∧
    e.Projects (ascii "t") table [ascii "id"] fun row => row.fields[0]? = some (ascii "1") := by
  let table : HeapFile :=
    { attributeNames := [ascii "id", ascii "n"], attributeTypes := [.int, .int]
      primaryKey := ascii "id", recordCount := 1, data := [1, 0, 0, 0, 2, 0, 0, 0] }
  let e : DBEngine := { tablesRaw := KeyedMap.emplace ∅ (ascii "t") table }
  have hload : table.load.1 = [{ fields := [ascii "1", ascii "2"] }] := by decide +kernel
  refine ⟨e, table, rfl, hload, ?_⟩
  refine (DBEngine.loadIf_projects_iff (rfl : e.tablesRaw.lookup (ascii "t") = some table)
    (by decide) (by decide) _).2 ⟨?_, .inl ?_⟩
  · rw [hload]
    decide
  · unfold HeapFile.SelectsFirst Initial
    decide

/-- The second column of all rows: the records come back without fields. -/
theorem not_projects : ∃ (e : DBEngine) (table : HeapFile),
    e.tablesRaw.lookup (ascii "t") = some table ∧
    table.attributeNames = [ascii "id", ascii "n"] ∧
    table.load.1 = [{ fields := [ascii "1", ascii "2"] }] ∧
    (e.loadIf (ascii "t") [ascii "n"] fun _ => true).1 = .ok [{}] ∧
    ¬ e.Projects (ascii "t") table [ascii "n"] fun _ => true := by
  let table : HeapFile :=
    { attributeNames := [ascii "id", ascii "n"], attributeTypes := [.int, .int]
      primaryKey := ascii "id", recordCount := 1, data := [1, 0, 0, 0, 2, 0, 0, 0] }
  let e : DBEngine := { tablesRaw := KeyedMap.emplace ∅ (ascii "t") table }
  have hload : table.load.1 = [{ fields := [ascii "1", ascii "2"] }] := by decide +kernel
  have hloaded : (e.loadIf (ascii "t") [ascii "n"] fun _ => true).1 = .ok [{}] := by
    rw [DBEngine.loadIf_eq (rfl : e.tablesRaw.lookup (ascii "t") = some table) (by decide)
      (by decide), hload]
    rfl
  refine ⟨e, table, rfl, rfl, hload, hloaded, fun h => ?_⟩
  rw [DBEngine.Projects, hloaded, hload] at h
  cases h

end

end DbEngine

end Rdbms
