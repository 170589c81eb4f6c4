import Rdbms.Engine.Model
import Rdbms.Heap.Append

/-!
# One call of `add`

`add` has two stages: the key goes into the primary-key index (`addKey`), then the row into the heap
file (`addRow`). The first touches one entry of `m_sequential_indexes` at most and no table, the
second only the table. `AddCase` is what a call can do.
-/

namespace Rdbms

namespace DbEngine
variable [FloatType] {e e' : DBEngine} {fuel : Nat} {tableName : Bytes} {table table' : HeapFile}
  {type : FieldType} {key : Attribute} {pos : Int} {index : Index} {record : Record}
  {idx : IndexContainer SequentialIndex} {res : Except Exn Bool} {ex : Exn}

/-! ## Casts -/

/-- A number of an `INT` column is cast. -/
theorem keyCastAndExecute_int {β : Type} {value : Bytes} {z : Int} (hz : stoi value = .ok z)
    (func : ∀ {κ : Type} [KeyType κ], Alternative κ → κ → β) :
    keyCastAndExecute .int value func = .ok (some (func .int z)) := by
  rw [keyCastAndExecute, hz]
  rfl

/-- What is no number makes `key_cast_and_execute` throw. -/
theorem keyCastAndExecute_int_error {β : Type} {value : Bytes} (hz : stoi value = .error ex)
    (func : ∀ {κ : Type} [KeyType κ], Alternative κ → κ → β) :
    keyCastAndExecute .int value func = .error ex := by
  rw [keyCastAndExecute, hz]
  rfl

/-- What `key_cast_and_execute` calls. -/
theorem keyCastAndExecute_some {β : Type} {value : Bytes} {b : β}
    {func : ∀ {κ : Type} [KeyType κ], Alternative κ → κ → β}
    (h : keyCastAndExecute type value func = .ok (some b)) :
    (∃ z, b = func .int z) ∨ ∃ v, b = func .float v := by
  unfold keyCastAndExecute at h
  cases type with
  | bool | varchar size => cases h
  | int =>
    cases hz : stoi value with
    | error ex =>
      rw [hz] at h
      cases h
    | ok z =>
      rw [hz] at h
      cases h
      exact .inl ⟨z, rfl⟩
  | float =>
    cases hv : FloatType.stof value with
    | error ex =>
      rw [hv] at h
      cases h
    | ok v =>
      rw [hv] at h
      cases h
      exact .inr ⟨v, rfl⟩

omit [FloatType] in
/-- A computation in two parts succeeds when both do. -/
theorem bind_eq_ok {α β : Type} {x : Except Exn α} {f : α → Except Exn β} {b : β} :
    (x >>= f) = .ok b ↔ ∃ a, x = .ok a ∧ f a = .ok b := by
  cases x with
  | error ex => exact iff_of_false nofun nofun
  | ok a => exact ⟨fun h => ⟨a, rfl, h⟩, fun ⟨_, heq, h⟩ => Except.ok.inj heq ▸ h⟩

/-- `add` of an integer reaches an index of integers. -/
theorem IndexContainer.add_int (si : SequentialIndex Int) (z : Int) :
    (IndexContainer.int si).add fuel .int z pos =
      (si.add fuel z pos).map fun (res, si) => (res.map fun rs => !rs.isEmpty, .int si) := by
  rw [IndexContainer.add, IndexContainer.call]
  simp only [Alternative.int, Option.map_map]
  rfl

/-- An integer goes into no other index. -/
theorem IndexContainer.add_ok {z : Int} {idx' : IndexContainer SequentialIndex}
    (h : idx.add fuel .int z pos = some (.ok true, idx')) :
    ∃ si si' records, idx = .int si ∧ si.add fuel z pos = some (.ok records, si') ∧
      idx' = .int si' := by
  cases idx with
  | float i => cases h
  | string i => cases h
  | int si =>
    rw [add_int] at h
    obtain ⟨⟨res, si'⟩, hadd, heq⟩ := Option.map_eq_some_iff.1 h
    cases res with
    | error ex => cases heq
    | ok records =>
      cases (Prod.mk.inj heq).2
      exact ⟨si, si', records, rfl, hadd, rfl⟩

namespace DBEngine

/-! ## The state -/

/-- A table is found under its name. -/
theorem tableAt_eq_ok : e.tableAt tableName = .ok table ↔ e.tablesRaw.lookup tableName = some table := by
  unfold tableAt
  cases e.tablesRaw.lookup tableName with
  | none => simp
  | some t => simp

/-- A table that is there is found. -/
theorem tableAt_of_lookup (h : e.tablesRaw.lookup tableName = some table) :
    e.tableAt tableName = .ok table := tableAt_eq_ok.2 h

/-- A table is replaced. -/
theorem lookup_setTable_self (h : e.tablesRaw.lookup tableName = some table') :
    (e.setTable tableName table).tablesRaw.lookup tableName = some table :=
  KeyedMap.lookup_replace_self (by simp [h])

/-- The other tables stay. -/
theorem lookup_setTable_ne {other : Bytes} (h : other ≠ tableName) :
    (e.setTable tableName table).tablesRaw.lookup other = e.tablesRaw.lookup other :=
  KeyedMap.lookup_replace_ne h

/-! ## The key -/

/-- An index of a table gets a key, or nothing changes. -/
theorem addKey_state (h : e.addKey fuel tableName type key pos = some (res, e')) :
    e' = e ∨ ∃ idx, e' = e.setSequential ⟨tableName, key.name⟩ idx := by
  unfold addKey at h
  split at h
  · cases h
    exact .inl rfl
  · split at h
    · cases h
      exact .inl rfl
    · cases h
      exact .inl rfl
    · obtain ⟨⟨res1, idx1⟩, -, heq⟩ := Option.map_eq_some_iff.1 h
      cases heq
      exact .inr ⟨idx1, rfl⟩

/-- The index on the primary key is told, and no table changes. -/
theorem addKey_tablesRaw (h : e.addKey fuel tableName type key pos = some (res, e')) :
    e'.tablesRaw = e.tablesRaw := by
  obtain rfl | ⟨idx, rfl⟩ := addKey_state h <;> rfl

/-- A key that has gone into an index of integers. -/
theorem addKey_int (h : e.addKey fuel tableName .int key pos = some (.ok true, e')) :
    ∃ si si' z records, e.sequentialIndexes.lookup ⟨tableName, key.name⟩ = some (.int si) ∧
      stoi key.value = .ok z ∧ si.add fuel z pos = some (.ok records, si') ∧
      e' = e.setSequential ⟨tableName, key.name⟩ (.int si') := by
  unfold addKey at h
  cases hidx : e.sequentialIndexes.lookup ⟨tableName, key.name⟩ with
  | none =>
    simp only [hidx] at h
    cases h
  | some idx =>
    cases hz : stoi key.value with
    | error ex =>
      simp only [hidx, keyCastAndExecute_int_error hz] at h
      cases h
    | ok z =>
      simp only [hidx, keyCastAndExecute_int hz] at h
      obtain ⟨⟨res, idx'⟩, hadd, heq⟩ := Option.map_eq_some_iff.1 h
      obtain ⟨rfl, rfl⟩ := Prod.mk.inj heq
      obtain ⟨si, si', records, rfl, hsi, rfl⟩ := IndexContainer.add_ok hadd
      exact ⟨si, si', z, records, rfl, rfl, hsi, rfl⟩

/-! ## The call -/

/-- What a call of `add` can do. -/
inductive AddCase (e : DBEngine) (fuel : Nat) (tableName : Bytes) (record : Record) :
    Outcome DBEngine Bool → Prop
  | noKey (ex : Exn) : AddCase e fuel tableName record (.error ex, e)
  | atKey {table : HeapFile} {type : FieldType} {key : Attribute} {res : Except Exn Bool}
      {e' : DBEngine} (ex : Exn) (lookup : e.tablesRaw.lookup tableName = some table)
      (getKey : table.getKey record = .ok (type, key))
      (addKey : e.addKey fuel tableName type key table.nextPos = some (res, e'))
      (refused : res ≠ .ok true) : AddCase e fuel tableName record (.error ex, e')
  | atRow {table table' : HeapFile} {type : FieldType} {key : Attribute} {e' : DBEngine} {ex : Exn}
      (lookup : e.tablesRaw.lookup tableName = some table)
      (getKey : table.getKey record = .ok (type, key))
      (addKey : e.addKey fuel tableName type key table.nextPos = some (.ok true, e'))
      (add : table.add record = (.error ex, table')) :
      AddCase e fuel tableName record (.error ex, e'.setTable tableName table')
  | done {table table' : HeapFile} {type : FieldType} {key : Attribute} {e' : DBEngine} {pos : Int}
      (lookup : e.tablesRaw.lookup tableName = some table)
      (getKey : table.getKey record = .ok (type, key))
      (addKey : e.addKey fuel tableName type key table.nextPos = some (.ok true, e'))
      (add : table.add record = (.ok pos, table')) :
      AddCase e fuel tableName record (.ok true, e'.setTable tableName table')

/-- How `add` ends. -/
theorem add_cases {value : List Bytes} {out : Outcome DBEngine Bool}
    (h : e.add fuel tableName value = some out) :
    AddCase e fuel tableName { fields := value } out := by
  unfold add at h
  cases hlookup : e.tablesRaw.lookup tableName with
  | none =>
    simp only [tableAt, hlookup] at h
    cases h
    exact .noKey _
  | some table =>
    simp only [tableAt_of_lookup hlookup] at h
    cases hkey : table.getKey { fields := value } with
    | error ex =>
      simp only [hkey] at h
      cases h
      exact .noKey _
    | ok typeKey =>
      obtain ⟨type, key⟩ := typeKey
      simp only [hkey] at h
      obtain ⟨⟨res, e1⟩, hadd, rfl⟩ := Option.map_eq_some_iff.1 h
      cases res with
      | error ex => exact .atKey ex hlookup hkey hadd nofun
      | ok inserted =>
        cases inserted with
        | false => exact .atKey _ hlookup hkey hadd nofun
        | true =>
          have hlookup' : e1.tableAt tableName = .ok table := by
            rw [tableAt_eq_ok, addKey_tablesRaw hadd, hlookup]
          simp only [addRow, hlookup']
          cases hrow : table.add { fields := value } with
          | mk res' table' =>
            cases res' with
            | error ex => exact .atRow hlookup hkey hadd hrow
            | ok pos => exact .done hlookup hkey hadd hrow

end DBEngine

end DbEngine

end Rdbms
