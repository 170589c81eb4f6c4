import Rdbms.Engine.Refine
import Rdbms.Engine.Register

/-!
# The catalog

What the engine says of its tables and indexes: `is_table`, `get_table_names`, `get_table_attributes`
and `get_indexes_names`. No operation on the rows of a table changes any of it, whether it comes back
with a result or throws, and `create_index` at most adds the index that it is called for
(`Extends.perform`). So the tables after a run are what its calls of `create_table` and `drop_table`
make of them (`tables_of_run`), and an index is on the list of its table from the call on that made
it, also when the table has been dropped (`listed_of_run`).
-/

namespace Rdbms

namespace DbEngine

/-- What a table is made with. -/
structure Definition where
  attributeNames : List Bytes
  attributeTypes : List FieldType
  primaryKey : Bytes

/-- `get_type`, which reads no more of a table. -/
def Definition.getType (d : Definition) (attributeName : Bytes) : Except Exn FieldType :=
  HeapFile.getType { d with } attributeName

section
variable [FloatType] {e e' e1 : DBEngine} {tableName : Bytes} {table table' : HeapFile} {fuel : Nat}

namespace HeapFile

omit [FloatType] in
/-- The columns, types and primary key of a table. -/
def definition (table : HeapFile) : Definition :=
  ⟨table.attributeNames, table.attributeTypes, table.primaryKey⟩

omit [FloatType] in
/-- Opening the stream leaves the definition alone. -/
theorem definition_openStream (table : HeapFile) (truncate : Bool) :
    (table.openStream truncate).1.definition = table.definition := by
  rw [openStream]
  split <;> rfl

omit [FloatType] in
/-- So do the bytes that are handed to it. -/
theorem definition_put (table : HeapFile) (good : Bool) (bytes : Bytes) :
    (table.put good bytes).definition = table.definition := by
  obtain ⟨data, leftOpen, hput⟩ := table.exists_put good bytes
  rw [hput]
  rfl

/-- `read` leaves the definition alone. -/
theorem definition_read (table : HeapFile) (pos : Int) :
    (table.read pos).2.definition = table.definition := definition_openStream table false

/-- `load` leaves the definition alone. -/
theorem definition_load (table : HeapFile) : table.load.2.definition = table.definition :=
  definition_openStream table false

/-- `remove` leaves the definition alone. -/
theorem definition_remove (table : HeapFile) (pos : Int) :
    (table.remove pos).2.definition = table.definition := by
  have hopen := definition_openStream table true
  simp only [remove]
  split
  · exact hopen
  · exact (definition_put _ _ _).trans hopen

/-- `add` leaves the definition alone. -/
theorem definition_add (table : HeapFile) (record : Record) :
    (table.add record).2.definition = table.definition := by
  have hopen := definition_openStream table false
  simp only [add]
  split
  · exact hopen
  · exact (definition_put _ _ _).trans hopen

end HeapFile

namespace DBEngine

/-! ## What the engine says -/

/-- `is_table`. -/
def isTable (e : DBEngine) (tableName : Bytes) : Bool := decide (tableName ∈ e.tablesRaw)

/-- `get_table_names`. The map goes through its entries in some order. -/
def getTableNames (order : List Bytes → List Bytes) (e : DBEngine) : List Bytes :=
  order e.tablesRaw.keys

/-- `get_table_attributes`. -/
def getTableAttributes (e : DBEngine) (tableName : Bytes) : Except Exn (List Bytes) :=
  (e.tableAt tableName).map (·.attributeNames)

/-- A loop of `get_indexes_names`: the attributes of the table among the entries of one of the maps. -/
def attributesIn (tableName : Bytes) (indexes : List Index) : List Bytes :=
  (indexes.filter (·.table = tableName)).map (·.attributeName)

/-- `get_indexes_names`. -/
def getIndexesNames [Unspecified] (e : DBEngine) (tableName : Bytes) : List Bytes :=
  attributesIn tableName (Unspecified.order e.avlIndexes.keys) ++
    attributesIn tableName (Unspecified.order e.isamIndexes.keys) ++
    attributesIn tableName (Unspecified.order e.sequentialIndexes.keys)

/-- What the tables were made with. -/
def definitions (e : DBEngine) (tableName : Bytes) : Option Definition :=
  (e.tablesRaw.lookup tableName).map HeapFile.definition

/-- `is_table` says whether there is a definition. -/
theorem isTable_eq (e : DBEngine) (tableName : Bytes) :
    e.isTable tableName = (e.definitions tableName).isSome := by
  rw [isTable, definitions, Option.isSome_map, Bool.eq_iff_iff, decide_eq_true_iff]
  exact AList.lookup_isSome.symm

/-- `get_table_attributes` gives the columns of the definition, or throws. -/
theorem getTableAttributes_eq (e : DBEngine) (tableName : Bytes) :
    e.getTableAttributes tableName = (e.definitions tableName).elim
      (.error (.outOfRange "unordered_map::at")) fun d => .ok d.attributeNames := by
  rw [getTableAttributes, tableAt, definitions]
  cases e.tablesRaw.lookup tableName with
  | none => rfl
  | some table => rfl

omit [FloatType] in
/-- The attributes of a table that have an index in the map. -/
theorem mem_attributesIn [Unspecified] {I : Type} {m : KeyedMap Index I} {name : Bytes} :
    name ∈ attributesIn tableName (Unspecified.order m.keys) ↔ (⟨tableName, name⟩ : Index) ∈ m := by
  simp only [attributesIn, List.mem_map, List.mem_filter, (Unspecified.order_perm m.keys).mem_iff,
    decide_eq_true_iff, ← AList.mem_keys]
  constructor
  · rintro ⟨index, ⟨hmem, rfl⟩, rfl⟩
    exact hmem
  · intro hmem
    exact ⟨_, ⟨hmem, rfl⟩, rfl⟩

/-- A name is on the list when there is an index of one of the kinds. -/
theorem mem_getIndexesNames [Unspecified] {name : Bytes} :
    name ∈ e.getIndexesNames tableName ↔ ∃ kind, e.HasIndex ⟨tableName, name⟩ kind := by
  rw [getIndexesNames, List.mem_append, List.mem_append, mem_attributesIn, mem_attributesIn,
    mem_attributesIn]
  constructor
  · rintro ((havl | hisam) | hsequential)
    · exact ⟨.avl, havl⟩
    · exact ⟨.isam, hisam⟩
    · exact ⟨.sequential, hsequential⟩
  · rintro ⟨kind, hindex⟩
    cases kind with
    | avl => exact .inl (.inl hindex)
    | isam => exact .inl (.inr hindex)
    | sequential => exact .inr hindex

/-! ## What an operation leaves -/

/-- The indexes are the same, but for a new one. -/
structure AddsIndex (new : Option (Index × IndexType)) (e e' : DBEngine) : Prop where
  keeps : ∀ index kind, e.HasIndex index kind → e'.HasIndex index kind
  adds : ∀ index kind, e'.HasIndex index kind → e.HasIndex index kind ∨ new = some (index, kind)

/-- The tables are the same too. -/
structure Extends (new : Option (Index × IndexType)) (e e' : DBEngine) : Prop
    extends AddsIndex new e e' where
  definitions : e'.definitions = e.definitions

variable {new : Option (Index × IndexType)} {index : Index} {kind : IndexType}

/-- Nothing has been added. -/
theorem AddsIndex.of_same (hsame : ∀ index kind, e'.HasIndex index kind ↔ e.HasIndex index kind) :
    AddsIndex new e e' :=
  ⟨fun index kind h => (hsame index kind).2 h, fun index kind h => .inl ((hsame index kind).1 h)⟩

/-- One index is new, if it was not there. -/
theorem AddsIndex.of_new
    (hsame : ∀ index' kind', kind' ≠ kind → (e'.HasIndex index' kind' ↔ e.HasIndex index' kind'))
    (hmem : ∀ index', e'.HasIndex index' kind ↔ index' = index ∨ e.HasIndex index' kind) :
    AddsIndex (some (index, kind)) e e' ∧ e'.HasIndex index kind := by
  refine ⟨⟨fun index' kind' h => ?_, fun index' kind' h => ?_⟩, (hmem index).2 (.inl rfl)⟩
  · by_cases hkind : kind' = kind
    · subst hkind
      exact (hmem index').2 (.inr h)
    · exact (hsame index' kind' hkind).2 h
  · by_cases hkind : kind' = kind
    · subst hkind
      rcases (hmem index').1 h with rfl | h
      · exact .inr rfl
      · exact .inl h
    · exact .inl ((hsame index' kind' hkind).1 h)

/-- Nothing has changed. -/
theorem Extends.refl (new : Option (Index × IndexType)) (e : DBEngine) : Extends new e e :=
  ⟨.of_same fun _ _ => .rfl, rfl⟩

/-- One step after another. -/
theorem Extends.trans (h : Extends new e e1) (h' : Extends new e1 e') : Extends new e e' where
  definitions := h'.definitions.trans h.definitions
  keeps index kind hindex := h'.keeps index kind (h.keeps index kind hindex)
  adds index kind hindex := by
    rcases h'.adds index kind hindex with hindex | hnew
    · exact h.adds index kind hindex
    · exact .inr hnew

/-- A table of the same definition takes the place of one. -/
theorem definitions_setTable (hl : e.tablesRaw.lookup tableName = some table)
    (hdefinition : table'.definition = table.definition) :
    (e.setTable tableName table').definitions = e.definitions := by
  funext name
  by_cases hname : name = tableName
  · subst hname
    rw [definitions, definitions, lookup_setTable_self hl, hl, Option.map_some, Option.map_some,
      hdefinition]
  · rw [definitions, definitions, lookup_setTable_ne hname]

/-- The same, with the indexes. -/
theorem Extends.setTable (hl : e.tablesRaw.lookup tableName = some table)
    (hdefinition : table'.definition = table.definition) :
    Extends new e (e.setTable tableName table') :=
  ⟨.of_same fun _ kind => by cases kind <;> exact .rfl, definitions_setTable hl hdefinition⟩

/-- An index takes the place of one that is there. -/
theorem Extends.setSequential (index : Index) (idx : IndexContainer SequentialIndex) :
    Extends new e (e.setSequential index idx) :=
  ⟨.of_same fun _ kind => by
    cases kind with
    | avl | isam => exact .rfl
    | sequential => exact AList.mem_replace, rfl⟩

/-- The counter of positions is no part of the catalog. -/
theorem Extends.prevPos (prevPos : Option Int) : Extends new e { e with prevPos } :=
  ⟨.of_same fun _ kind => by cases kind <;> exact .rfl, rfl⟩

/-! ### Rows -/

/-- `add` leaves the catalog alone, also when it throws. -/
theorem Extends.add {value : List Bytes} {res : Except Exn Bool}
    (h : e.add fuel tableName value = some (res, e')) : Extends new e e' := by
  have hkey {type : FieldType} {key : Attribute} {pos : Int} {res : Except Exn Bool} {e1 : DBEngine}
      (hk : e.addKey fuel tableName type key pos = some (res, e1)) : Extends new e e1 := by
    obtain rfl | ⟨idx, rfl⟩ := addKey_state hk
    · exact .refl new e1
    · exact .setSequential _ idx
  have hrow {type : FieldType} {key : Attribute} {pos : Int} {res : Except Exn Bool} {e1 : DBEngine}
      {table table' : HeapFile} {r : Except Exn Int}
      (hk : e.addKey fuel tableName type key pos = some (res, e1))
      (hl : e.tablesRaw.lookup tableName = some table)
      (hadd : table.add { fields := value } = (r, table')) :
      Extends new e (e1.setTable tableName table') := by
    have hdefinition := table.definition_add { fields := value }
    rw [hadd] at hdefinition
    refine (hkey hk).trans (.setTable ?_ hdefinition)
    obtain rfl | ⟨idx, rfl⟩ := addKey_state hk <;> exact hl
  cases add_cases h with
  | noKey => exact .refl new e
  | atKey ex lookup getKey addKey => exact hkey addKey
  | atRow lookup getKey addKey add => exact hrow addKey lookup add
  | done lookup getKey addKey add => exact hrow addKey lookup add

/-- `remove` of a key from the indexes leaves the catalog alone. -/
theorem Extends.removeKey {key : Attribute} {indexes : List Index} {rawPos : Int}
    {res : Except Exn Int} (h : removeKey fuel tableName key indexes e rawPos = some (res, e')) :
    Extends new e e' := by
  induction indexes generalizing e rawPos with
  | nil =>
    cases h
    exact .refl new _
  | cons index indexes ih =>
    unfold DBEngine.removeKey at h
    split at h
    · exact ih h
    · split_ifs at h
      · exact ih h
      · simp only at h
        split at h
        · cases h
          exact .refl new _
        · exact ih h
        · obtain ⟨⟨res1, idx1⟩, -, h⟩ := Option.bind_eq_some_iff.1 h
          cases res1 with
          | error ex =>
            cases h
            exact .setSequential index idx1
          | ok pos => exact (Extends.setSequential index idx1).trans (ih h)

/-- `remove` leaves the catalog alone, also when it throws. -/
theorem Extends.remove [Unspecified] {key : Attribute} {res : Except Exn Bool}
    (h : e.remove fuel tableName key = some (res, e')) : Extends new e e' := by
  unfold DBEngine.remove at h
  obtain ⟨⟨res1, e1⟩, hkey, h⟩ := Option.bind_eq_some_iff.1 h
  have hloop : Extends new e e1 := .removeKey hkey
  cases res1 with
  | error ex =>
    cases h
    exact hloop
  | ok rawPos =>
    simp only at h
    split_ifs at h
    · cases h
      exact hloop
    · split at h
      · cases h
        exact hloop
      · next table hat =>
        cases h
        exact hloop.trans (.setTable (tableAt_eq_ok.1 hat) (table.definition_remove rawPos))

/-! ### Queries -/

/-- Reading rows leaves the definition alone. -/
theorem definition_readRows (expr : Record → Bool) (positions : List Int) (table : HeapFile) :
    (readRows expr positions table).2.definition = table.definition := by
  induction positions generalizing table with
  | nil => rfl
  | cons pos positions ih => exact (ih _).trans (table.definition_read pos)

/-- An answer leaves the catalog alone. -/
theorem Extends.answer (hl : e.tablesRaw.lookup tableName = some table) (positions : List Int)
    (expr : Record → Bool) (selected : List Bytes) :
    Extends new e (e.answer tableName table positions expr selected).2 :=
  .setTable hl (definition_readRows expr positions table)

/-- `load` leaves the catalog alone. -/
theorem Extends.load (e : DBEngine) (tableName : Bytes) (selected : List Bytes) :
    Extends new e (e.load tableName selected).2 := by
  rw [DBEngine.load]
  split
  · exact .refl new e
  · next table hat => exact .setTable (tableAt_eq_ok.1 hat) table.definition_load

/-- `load` with a predicate leaves the catalog alone. -/
theorem Extends.loadIf (e : DBEngine) (tableName : Bytes) (selected : List Bytes)
    (expr : Record → Bool) : Extends new e (e.loadIf tableName selected expr).2 := by
  have hload : Extends new e (e.load tableName selected).2 := .load e tableName selected
  rw [DBEngine.loadIf]
  split
  · next heq => rwa [heq] at hload
  · next heq =>
    rw [heq] at hload
    split <;> exact hload

/-- `search` leaves the catalog alone, also when it throws. -/
theorem Extends.search [Unspecified] {key : Attribute} {expr : Record → Bool}
    {selected : List Bytes} {res : Except Exn (List Record)}
    (h : e.search fuel tableName key expr selected = some (res, e')) : Extends new e e' := by
  unfold DBEngine.search at h
  split at h
  · cases h
    exact .refl new e
  · next table hat =>
    have hl := tableAt_eq_ok.1 hat
    simp only at h
    split at h
    · cases h
      exact .refl new e
    · cases h
      exact .answer hl [] expr selected
    · obtain ⟨r, -, heq⟩ := Option.map_eq_some_iff.1 h
      cases r with
      | error ex =>
        cases heq
        exact .refl new e
      | ok positions =>
        cases heq
        exact .answer hl positions expr selected

/-- `range_search` leaves the catalog alone, also when it throws. -/
theorem Extends.rangeSearch [Unspecified] {beginKey endKey : Attribute} {expr : Record → Bool}
    {selected : List Bytes} {res : Except Exn (List Record)}
    (h : e.rangeSearch fuel tableName beginKey endKey expr selected = some (res, e')) :
    Extends new e e' := by
  unfold DBEngine.rangeSearch at h
  extract_lets loaded at h
  have hloaded : Extends new e loaded.2 := by
    unfold loaded
    split_ifs
    · exact .load e tableName selected
    · exact .refl new e
  clear_value loaded
  obtain ⟨r, e1⟩ := loaded
  cases r with
  | error ex =>
    cases h
    exact hloaded
  | ok u =>
    simp only at h
    split at h
    · cases h
      exact hloaded
    · cases h
      exact hloaded
    · next hat =>
      cases h
      exact hloaded.trans (.answer (tableAt_eq_ok.1 hat) [] expr selected)
    · next hat =>
      obtain ⟨r, -, heq⟩ := Option.map_eq_some_iff.1 h
      cases r with
      | error ex =>
        cases heq
        exact hloaded
      | ok positions =>
        cases heq
        exact hloaded.trans (.answer (tableAt_eq_ok.1 hat) positions expr selected)

/-! ### Indexes -/

/-- A map has the same entries when one of them has been loaded. -/
theorem mem_bulkInto {I : Type → Type} {β κ : Type} [KeyType κ] {m m' : KeyedMap Index (IndexContainer I)}
    {alt : Alternative κ} {bulkInsert : I κ → Option (Outcome (I κ) β)} {res : Except Exn Unit}
    (h : bulkInto m index alt bulkInsert = some (res, m')) (index' : Index) : index' ∈ m' ↔ index' ∈ m := by
  unfold bulkInto at h
  split at h
  · cases h
    exact .rfl
  · obtain ⟨⟨r, idx⟩, -, heq⟩ := Option.map_eq_some_iff.1 h
    cases heq
    exact AList.mem_replace

section
variable [Unspecified]

/-- Loading an index adds that one at most, and adds it when it succeeds. -/
theorem Extends.bulkIndex {κ : Type} [KeyType κ] [IntCast κ] {alt : Alternative κ}
    {pairs : List (κ × Int)} {res : Except Exn Unit}
    (h : e.bulkIndex fuel index kind alt pairs = some (res, e')) :
    Extends (some (index, kind)) e e' ∧ (res = .ok () → e'.HasIndex index kind) := by
  unfold DBEngine.bulkIndex at h
  split_ifs at h
  · cases h
    refine ⟨.refl _ _, fun hok => ?_⟩
    cases hok
  · cases kind with
    | avl | sequential | isam =>
      obtain ⟨⟨r, m⟩, hbulk, heq⟩ := Option.map_eq_some_iff.1 h
      cases heq
      refine And.imp (fun hadds => ⟨hadds, rfl⟩) (fun hmade _ => hmade)
        (AddsIndex.of_new (fun index' kind' hkind => ?_)
          fun index' => (mem_bulkInto hbulk index').trans KeyedMap.mem_emplace)
      cases kind' <;> first | exact absurd rfl hkind | exact .rfl

/-- The same from the rows of the table. -/
theorem Extends.loadIndex {κ : Type} [KeyType κ] [IntCast κ] {alt : Alternative κ}
    {cast : Bytes → Except Exn κ} {recordSize : Nat} {res : Except Exn Unit}
    (h : e.loadIndex fuel index kind alt cast recordSize = some (res, e')) :
    Extends (some (index, kind)) e e' ∧ (res = .ok () → e'.HasIndex index kind) := by
  have hload : Extends (some (index, kind)) e (e.load index.table [index.attributeName]).2 :=
    .load e index.table [index.attributeName]
  unfold DBEngine.loadIndex at h
  split at h
  · next heq =>
    rw [heq] at hload
    cases h
    refine ⟨hload, fun hok => ?_⟩
    cases hok
  · next records e1 heq =>
    rw [heq] at hload
    split at h
    · cases h
      refine ⟨hload.trans (.prevPos _), fun hok => ?_⟩
      cases hok
    · next keys prevPos _ =>
      obtain ⟨hbulk, hmade⟩ := Extends.bulkIndex h
      exact ⟨(hload.trans (.prevPos prevPos)).trans hbulk, hmade⟩

variable [IntCast FloatType.Value]

/-- `create_index` adds the index when it comes back without an exception, but for a `VARCHAR` column. -/
theorem Extends.createIndex {columnName : Bytes} {res : Except Exn Unit}
    (h : e.createIndex fuel tableName columnName kind = some (res, e')) :
    Extends (some (⟨tableName, columnName⟩, kind)) e e' ∧
      (res = .ok () → e'.HasIndex ⟨tableName, columnName⟩ kind ∨
        ∃ d size, e.definitions tableName = some d ∧ d.getType columnName = .ok (.varchar size)) := by
  unfold DBEngine.createIndex at h
  split at h
  · cases h
    refine ⟨.refl _ _, fun hok => ?_⟩
    cases hok
  · next table hat =>
    have hdefinition : e.definitions tableName = some table.definition := by
      rw [DBEngine.definitions, tableAt_eq_ok.1 hat, Option.map_some]
    simp only at h
    split at h
    · cases h
      refine ⟨.refl _ _, fun hok => ?_⟩
      cases hok
    · cases h
      refine ⟨.refl _ _, fun hok => ?_⟩
      cases hok
    · obtain ⟨hload, hmade⟩ := Extends.loadIndex h
      exact ⟨hload, fun hok => .inl (hmade hok)⟩
    · obtain ⟨hload, hmade⟩ := Extends.loadIndex h
      exact ⟨hload, fun hok => .inl (hmade hok)⟩
    · next size htype =>
      cases h
      exact ⟨.refl _ _, fun _ => .inr ⟨_, size, hdefinition, htype⟩⟩

/-- The index that an operation asks for. -/
def TableOp.asks (tableName : Bytes) : TableOp → Option (Index × IndexType)
  | .createIndex columnName indexType => some (⟨tableName, columnName⟩, indexType)
  | _ => none

/-- An operation, whether it comes back with a result or throws. -/
theorem Extends.perform {op : TableOp} {reply : Except Exn Reply}
    (h : e.perform fuel tableName op = some (reply, e')) : Extends (op.asks tableName) e e' := by
  cases op with
  | add value =>
    obtain ⟨⟨r, e1⟩, hop, heq⟩ := Option.map_eq_some_iff.1 h
    cases heq
    exact .add hop
  | remove key =>
    obtain ⟨⟨r, e1⟩, hop, heq⟩ := Option.map_eq_some_iff.1 h
    cases heq
    exact .remove hop
  | search key expr selected =>
    obtain ⟨⟨r, e1⟩, hop, heq⟩ := Option.map_eq_some_iff.1 h
    cases heq
    exact .search hop
  | rangeSearch beginKey endKey expr selected =>
    obtain ⟨⟨r, e1⟩, hop, heq⟩ := Option.map_eq_some_iff.1 h
    cases heq
    exact .rangeSearch hop
  | load selected =>
    cases h
    exact .load e tableName selected
  | loadIf selected expr =>
    cases h
    exact .loadIf e tableName selected expr
  | createIndex columnName indexType =>
    obtain ⟨⟨r, e1⟩, hop, heq⟩ := Option.map_eq_some_iff.1 h
    cases heq
    exact (Extends.createIndex hop).1

end

/-! ## Calls -/

/-- The calls that change or read the tables. -/
inductive PublicCall
  | createTable (tableName primaryKey : Bytes) (types : List FieldType) (attributeNames : List Bytes)
  | dropTable (tableName : Bytes)
  | perform (tableName : Bytes) (op : TableOp)

namespace PublicCall

/-- What the tables are made with after a call. `create_table` on a new name makes a table even when it
throws, since the table is there before the primary key is looked up. -/
def define (tables : Bytes → Option Definition) : PublicCall → Bytes → Option Definition
  | .createTable tableName primaryKey types attributeNames =>
    if (tables tableName).isSome then tables
    else Function.update tables tableName (some ⟨attributeNames, types, primaryKey⟩)
  | .dropTable tableName => Function.update tables tableName none
  | .perform _ _ => tables

/-- The index that a call asks for. -/
def asks : PublicCall → Option (Index × IndexType)
  | .createTable tableName primaryKey _ _ => some (⟨tableName, primaryKey⟩, .sequential)
  | .dropTable _ => none
  | .perform tableName op => op.asks tableName

/-- The call has made the index that it asks for: it has come back with success, and the column is of
a type that has indexes. -/
def Made (tables : Bytes → Option Definition) (reply : Except Exn Reply) : PublicCall → Prop
  | .createTable _ primaryKey types attributeNames =>
    reply = .ok (.flag true) ∧
      Definition.getType ⟨attributeNames, types, primaryKey⟩ primaryKey ≠ .ok .bool
  | .dropTable _ => False
  | .perform tableName op =>
    reply = .ok .unit ∧ ∀ index kind d size, op.asks tableName = some (index, kind) →
      tables tableName = some d → d.getType index.attributeName ≠ .ok (.varchar size)

end PublicCall

/-- `create_table` adds its definition, or throws. -/
theorem definitions_createTable (e : DBEngine) (tableName primaryKey : Bytes) (types : List FieldType)
    (names : List Bytes) : (e.createTable tableName primaryKey types names).2.definitions =
      (PublicCall.createTable tableName primaryKey types names).define e.definitions := by
  rw [PublicCall.define]
  by_cases hmem : tableName ∈ e.tablesRaw
  · have hthere : (e.definitions tableName).isSome := by
      rw [definitions, Option.isSome_map]
      exact AList.lookup_isSome.2 hmem
    rw [DBEngine.createTable, if_pos hmem, if_pos hthere]
  · have hnone := AList.lookup_eq_none.2 hmem
    have hnew : e.definitions tableName = none := by rw [definitions, hnone, Option.map_none]
    have htables : (e.createTable tableName primaryKey types names).2.tablesRaw =
        e.tablesRaw.emplace tableName
          { attributeNames := names, attributeTypes := types, primaryKey } := by
      rw [DBEngine.createTable, if_neg hmem]
      simp only
      split <;> rfl
    rw [hnew, if_neg (by simp)]
    funext name
    rw [definitions, htables]
    by_cases hname : name = tableName
    · subst hname
      rw [KeyedMap.lookup_emplace_self, hnone, Function.update_self]
      rfl
    · rw [KeyedMap.lookup_emplace_ne hname, Function.update_of_ne hname, definitions]

/-- `create_table` at most adds the index on the primary key, and does when it comes back with success,
but for a `BOOL` column. -/
theorem AddsIndex.createTable {primaryKey : Bytes} {types : List FieldType} {names : List Bytes}
    {res : Except Exn Bool} (h : e.createTable tableName primaryKey types names = (res, e')) :
    AddsIndex (some (⟨tableName, primaryKey⟩, .sequential)) e e' ∧
      (res = .ok true → Definition.getType ⟨names, types, primaryKey⟩ primaryKey ≠ .ok .bool →
        e'.HasIndex ⟨tableName, primaryKey⟩ .sequential) := by
  have hsame {tables : KeyedMap Bytes HeapFile} {new : Option (Index × IndexType)} :
      AddsIndex new e { e with tablesRaw := tables } :=
    .of_same fun _ kind => by cases kind <;> exact .rfl
  have hnew {tables : KeyedMap Bytes HeapFile} {idx : IndexContainer SequentialIndex}
      (hmake : e' = { e with
        tablesRaw := tables
        sequentialIndexes := e.sequentialIndexes.emplace ⟨tableName, primaryKey⟩ idx }) :
      AddsIndex (some (⟨tableName, primaryKey⟩, .sequential)) e e' ∧
        e'.HasIndex ⟨tableName, primaryKey⟩ .sequential := by
    subst hmake
    refine AddsIndex.of_new (fun _ kind hkind => ?_) fun _ => KeyedMap.mem_emplace
    cases kind <;> first | exact absurd rfl hkind | exact .rfl
  unfold DBEngine.createTable at h
  split_ifs at h
  · cases h
    refine ⟨.of_same fun _ _ => .rfl, fun hok => ?_⟩
    cases hok
  · simp only at h
    split at h
    · cases h
      refine ⟨hsame, fun hok => ?_⟩
      cases hok
    · cases h
      exact ⟨(hnew rfl).1, fun _ _ => (hnew rfl).2⟩
    · cases h
      exact ⟨(hnew rfl).1, fun _ _ => (hnew rfl).2⟩
    · cases h
      exact ⟨(hnew rfl).1, fun _ _ => (hnew rfl).2⟩
    · next hbool =>
      cases h
      exact ⟨hsame, fun _ hne => absurd hbool hne⟩

/-- `drop_table` takes the definition away. -/
theorem definitions_dropTable (h : e.dropTable tableName = some e') :
    e'.definitions = (PublicCall.dropTable tableName).define e.definitions := by
  rw [dropTable_of_noAvl (dropTable_keeps h).1] at h
  cases h
  funext name
  rw [PublicCall.define, definitions]
  by_cases hname : name = tableName
  · subst hname
    rw [AList.lookup_erase, Function.update_self, Option.map_none]
  · rw [AList.lookup_erase_ne hname, Function.update_of_ne hname, definitions]

/-- `drop_table` leaves all indexes. -/
theorem AddsIndex.dropTable (h : e.dropTable tableName = some e') : AddsIndex new e e' := by
  rw [dropTable_of_noAvl (dropTable_keeps h).1] at h
  cases h
  exact .of_same fun _ kind => by cases kind <;> exact .rfl

section
variable [Unspecified] [IntCast FloatType.Value] {c : PublicCall} {reply : Except Exn Reply}
  {calls : List (PublicCall × Except Exn Reply)}

/-- A call, which comes back with a result or throws. -/
def call (fuel : Nat) (e : DBEngine) : PublicCall → Option (Outcome DBEngine Reply)
  | .createTable tableName primaryKey types attributeNames =>
    let (res, e) := e.createTable tableName primaryKey types attributeNames
    some (res.map .flag, e)
  | .dropTable tableName => (e.dropTable tableName).map fun e => (.ok .unit, e)
  | .perform tableName op => e.perform fuel tableName op

/-- What a call does to the definitions. -/
theorem definitions_call (h : e.call fuel c = some (reply, e')) :
    e'.definitions = c.define e.definitions := by
  cases c with
  | createTable tableName primaryKey types names =>
    cases h
    exact e.definitions_createTable tableName primaryKey types names
  | dropTable tableName =>
    obtain ⟨e1, hdrop, heq⟩ := Option.map_eq_some_iff.1 h
    cases heq
    exact definitions_dropTable hdrop
  | perform tableName op => exact (Extends.perform h).definitions

/-- A call adds the index that it asks for and no other. -/
theorem AddsIndex.call (h : e.call fuel c = some (reply, e')) : AddsIndex c.asks e e' := by
  cases c with
  | createTable tableName primaryKey types names =>
    cases h
    exact (AddsIndex.createTable rfl).1
  | dropTable tableName =>
    obtain ⟨e1, hdrop, heq⟩ := Option.map_eq_some_iff.1 h
    cases heq
    exact .dropTable hdrop
  | perform tableName op => exact (Extends.perform h).toAddsIndex

/-- What a call has made is there. -/
theorem hasIndex_of_made (h : e.call fuel c = some (reply, e')) (hasks : c.asks = some (index, kind))
    (hmade : c.Made e.definitions reply) : e'.HasIndex index kind := by
  cases c with
  | createTable tableName primaryKey types names =>
    cases hasks
    obtain ⟨hreply, hbool⟩ := hmade
    cases hcreate : e.createTable tableName primaryKey types names with
    | mk res e1 =>
      simp only [DBEngine.call, hcreate] at h
      cases h
      cases res with
      | error ex => cases hreply
      | ok created =>
        cases hreply
        exact (AddsIndex.createTable hcreate).2 rfl hbool
  | dropTable tableName => exact hmade.elim
  | perform tableName op =>
    obtain ⟨hreply, hvarchar⟩ := hmade
    cases op with
    | createIndex columnName indexType =>
      cases hasks
      obtain ⟨⟨res, e1⟩, hop, heq⟩ := Option.map_eq_some_iff.1 h
      cases heq
      cases res with
      | error ex => cases hreply
      | ok u =>
        obtain hindex | ⟨d, size, hd, htype⟩ := (Extends.createIndex hop).2 rfl
        · exact hindex
        · exact absurd htype (hvarchar _ _ d size rfl hd)
    | _ => cases hasks

/-! ## Runs -/

/-- Calls from the start, each with its reply, and the engine after them. -/
inductive PublicRun : List (PublicCall × Except Exn Reply) → DBEngine → Prop
  | start : PublicRun [] {}
  | call {calls : List (PublicCall × Except Exn Reply)} {e e' : DBEngine} {c : PublicCall}
      {reply : Except Exn Reply} (fuel : Nat) (run : PublicRun calls e)
      (call : e.call fuel c = some (reply, e')) : PublicRun (calls ++ [(c, reply)]) e'

omit [Unspecified] [IntCast FloatType.Value] in
/-- What calls make of the tables. -/
def defined (calls : List (PublicCall × Except Exn Reply)) : Bytes → Option Definition :=
  calls.foldl (fun tables p => p.1.define tables) fun _ => none

/-- After a run the definitions are those that its calls leave. -/
theorem PublicRun.definitions_eq (h : PublicRun calls e) : e.definitions = defined calls := by
  induction h with
  | start => rfl
  | call _ _ hcall ih =>
    rw [definitions_call hcall, ih, defined, defined, List.foldl_append]
    rfl

/-- Every index has been asked for. -/
theorem PublicRun.asks (h : PublicRun calls e) (hindex : e.HasIndex index kind) :
    ∃ p ∈ calls, p.1.asks = some (index, kind) := by
  induction h with
  | start => cases kind <;> cases hindex
  | call _ _ hcall ih =>
    rcases (AddsIndex.call hcall).adds index kind hindex with hold | hnew
    · obtain ⟨p, hp, hasks⟩ := ih hold
      exact ⟨p, List.mem_append_left _ hp, hasks⟩
    · exact ⟨_, List.mem_append_right _ List.mem_cons_self, hnew⟩

/-- An index that a call has made stays. -/
theorem PublicRun.made (h : PublicRun calls e) {before after : List (PublicCall × Except Exn Reply)}
    (hcalls : calls = before ++ (c, reply) :: after) (hasks : c.asks = some (index, kind))
    (hmade : c.Made (defined before) reply) : e.HasIndex index kind := by
  induction h generalizing after with
  | start => exact absurd hcalls (by simp)
  | call _ run hcall ih =>
    rcases List.eq_nil_or_concat after with rfl | ⟨after', p, rfl⟩
    · obtain ⟨rfl, hlast⟩ := List.append_inj' hcalls rfl
      cases hlast
      exact hasIndex_of_made hcall hasks (run.definitions_eq ▸ hmade)
    · rw [List.concat_eq_append, ← List.cons_append, ← List.append_assoc] at hcalls
      obtain ⟨hinit, -⟩ := List.append_inj' hcalls rfl
      exact (AddsIndex.call hcall).keeps index kind (ih hinit)

/-- After a run, the tables are those that the calls of `create_table` and `drop_table` make, each with
the columns, the types and the primary key that it was made with. -/
theorem tables_of_run (h : PublicRun calls e) :
    e.definitions = defined calls ∧
    (∀ tableName, e.isTable tableName = (defined calls tableName).isSome) ∧
    (∀ tableName, e.getTableAttributes tableName = (defined calls tableName).elim
      (.error (.outOfRange "unordered_map::at")) fun d => .ok d.attributeNames) ∧
    ∀ order, (∀ names : List Bytes, (order names).Perm names) → (e.getTableNames order).Nodup ∧
      ∀ tableName, tableName ∈ e.getTableNames order ↔ (defined calls tableName).isSome := by
  rw [← h.definitions_eq]
  refine ⟨rfl, e.isTable_eq, e.getTableAttributes_eq, fun order horder => ⟨?_, fun tableName => ?_⟩⟩
  · exact (horder e.tablesRaw.keys).nodup_iff.2 (AList.keys_nodup _)
  · rw [getTableNames, (horder e.tablesRaw.keys).mem_iff, ← AList.mem_keys, ← isTable_eq, isTable,
      decide_eq_true_iff]

/-- After a run, the list of indexes of a table has only attributes that a call has asked for, and all
those on which a call of the run has made one, whatever came after it. -/
theorem listed_of_run (h : PublicRun calls e) :
    (∀ tableName name, name ∈ e.getIndexesNames tableName →
      ∃ p ∈ calls, ∃ kind, p.1.asks = some (⟨tableName, name⟩, kind)) ∧
    ∀ before after c reply index kind, calls = before ++ (c, reply) :: after →
      c.asks = some (index, kind) → c.Made (defined before) reply →
      index.attributeName ∈ e.getIndexesNames index.table := by
  refine ⟨fun tableName name hname => ?_, fun before after c reply index kind hcalls hasks hmade => ?_⟩
  · obtain ⟨kind, hindex⟩ := mem_getIndexesNames.1 hname
    obtain ⟨p, hp, hasks⟩ := h.asks hindex
    exact ⟨p, hp, kind, hasks⟩
  · exact mem_getIndexesNames.2 ⟨kind, h.made hcalls hasks hmade⟩

end

end DBEngine

end

section
attribute [local instance] noFloats firstChoice noFloatsCast

/-- A table is there although `create_table` has thrown, since its primary key is not a column. -/
theorem tables_of_run_sample : ∃ e : DBEngine, DBEngine.PublicRun
    [(.createTable (ascii "t") (ascii "x") [.int] [ascii "id"],
      .error (.runtimeError "Attribute not found"))] e ∧ e.isTable (ascii "t") = true := by
  have h : DBEngine.PublicRun [(.createTable (ascii "t") (ascii "x") [.int] [ascii "id"],
      .error (.runtimeError "Attribute not found"))] _ := .call 0 .start rfl
  obtain ⟨-, htable, -⟩ := DBEngine.tables_of_run h
  exact ⟨_, h, htable (ascii "t")⟩

/-- The index on the primary key stays on the list when the table is dropped. -/
theorem listed_of_run_sample : ∃ e : DBEngine, DBEngine.PublicRun
    [(.createTable (ascii "t") (ascii "id") [.int] [ascii "id"], .ok (.flag true)),
      (.dropTable (ascii "t"), .ok .unit)] e ∧ ascii "id" ∈ e.getIndexesNames (ascii "t") := by
  have h : DBEngine.PublicRun [(.createTable (ascii "t") (ascii "id") [.int] [ascii "id"],
      .ok (.flag true)), (.dropTable (ascii "t"), .ok .unit)] _ :=
    .call 0 (.call 0 .start rfl) rfl
  obtain ⟨-, hlisted⟩ := DBEngine.listed_of_run h
  exact ⟨_, h, hlisted [] _ _ _ _ _ rfl rfl ⟨rfl, by decide⟩⟩

end

end DbEngine

end Rdbms
