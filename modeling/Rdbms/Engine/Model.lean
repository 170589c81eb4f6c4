import Mathlib.Data.List.Lex
import Mathlib.Data.List.Sort
import Rdbms.Lib.KeyedMap
import Rdbms.Heap.HeapFile
import Rdbms.Sequential.BulkInsert
import Rdbms.Sequential.Erase
import Rdbms.Avl.Search
import Rdbms.Isam.Model

/-!
# The engine

`DBEngine`: the tables by name, each a heap file, and three maps of indexes by table and attribute.
The engine has started on an empty disk. Then a directory of a table is there exactly when the map
has the table, and the files of an index exactly when the map has an entry for it: a constructor
that finds the directory of an index leaves the files as they are, and an entry that is there is not
replaced, so both come to adding an entry when there is none (`KeyedMap.emplace`). Table and
attribute names are names of directories.
-/

namespace Rdbms

/-- The bytes of a string are compared as `unsigned char`. -/
instance instLinearOrderByte : LinearOrder UInt8 where
  le_refl := UInt8.le_refl
  le_trans _ _ _ := UInt8.le_trans
  le_antisymm _ _ := UInt8.le_antisymm
  le_total := UInt8.le_total
  lt_iff_le_not_ge _ _ := by rw [UInt8.not_le]; exact ⟨fun h => ⟨UInt8.le_of_lt h, h⟩, And.right⟩
  toDecidableLE := inferInstance

/-- The keys of an index on a `VARCHAR` column. No function of the engine adds one, so there is no
record over which an offset could be written. -/
instance : KeyType Bytes where
  ofOffset _ := []

namespace DbEngine

/-- `Index`. -/
structure Index where
  table : Bytes
  attributeName : Bytes
deriving DecidableEq

/-- What the language and its library leave open: the order in which an unordered map goes through
its entries, the order `std::sort` gives to equal elements, and the contents of new memory. -/
class Unspecified where
  order : List Index → List Index
  order_perm : ∀ keys, (order keys).Perm keys
  sort : ∀ {α κ : Type} [LinearOrder κ], (α → κ) → List α → List α
  sort_perm : ∀ {α κ : Type} [LinearOrder κ] (key : α → κ) (l : List α), (sort key l).Perm l
  sort_sorted : ∀ {α κ : Type} [LinearOrder κ] (key : α → κ) (l : List α),
    (sort key l).Pairwise (key · ≤ key ·)
  memory : ∀ {κ : Type} [IntCast κ], Nat → Slots κ

/-- The entries of a map in the order in which they came in, a stable sort, and memory with new
records. -/
@[reducible] def firstChoice : Unspecified where
  order := id
  order_perm _ := .refl _
  sort key := List.insertionSort (key · ≤ key ·)
  sort_perm _ _ := List.perm_insertionSort _ _
  sort_sorted key l := by
    have : Std.Total fun a b => key a ≤ key b := ⟨fun a b => le_total (key a) (key b)⟩
    have : IsTrans _ fun a b => key a ≤ key b := ⟨fun a b c => le_trans⟩
    exact List.pairwise_insertionSort _ l
  memory _ := default

/-- An integer as a key of `noFloats`. -/
@[reducible] def noFloatsCast : IntCast noFloats.Value := ⟨fun _ => ()⟩

/-- `KEY_LIMITS::MIN`. -/
def keyLimitsMin : Attribute := ⟨ascii "MIN", ascii "MIN"⟩

/-- `KEY_LIMITS::MAX`. -/
def keyLimitsMax : Attribute := ⟨ascii "MAX", ascii "MAX"⟩

variable [FloatType]

/-! ## Index containers -/

/-- `IndexContainer`: an index for one of three key types. -/
inductive IndexContainer (I : Type → Type)
  | int (idx : I Int)
  | float (idx : I FloatType.Value)
  | string (idx : I Bytes)

/-- One of the key types: how its alternative of the variant is made and got. -/
structure Alternative (κ : Type) where
  make : ∀ {I : Type → Type}, I κ → IndexContainer I
  get? : ∀ {I : Type → Type}, IndexContainer I → Option (I κ)

namespace Alternative

/-- `int` keys. -/
def int : Alternative Int where
  make := .int
  get?
    | .int idx => some idx
    | _ => none

/-- `float` keys. -/
def float : Alternative FloatType.Value where
  make := .float
  get?
    | .float idx => some idx
    | _ => none

/-- `std::string` keys. -/
def string : Alternative Bytes where
  make := .string
  get?
    | .string idx => some idx
    | _ => none

end Alternative

namespace IndexContainer
variable {I : Type → Type} {κ : Type} [KeyType κ]

/-- `std::get` and a call on what it gives. -/
def call {β : Type} (idx : IndexContainer I) (alt : Alternative κ)
    (f : I κ → Option (Outcome (I κ) β)) : Option (Outcome (IndexContainer I) β) :=
  match alt.get? idx with
  | some i => (f i).map fun (res, i) => (res, alt.make i)
  | none => some (.error .badVariantAccess, idx)

/-- `IndexContainer::range_search`. -/
def rangeSearch (idx : IndexContainer SequentialIndex) (fuel : Nat) (alt : Alternative κ)
    (first last : κ) : Option (Outcome (IndexContainer SequentialIndex) (List Int)) :=
  idx.call alt fun i => (i.rangeSearch fuel first last).map (.ok ·, i)

/-- `IndexContainer::remove`: the first of the reported positions. -/
def remove (idx : IndexContainer SequentialIndex) (fuel : Nat) (alt : Alternative κ) (key : κ) :
    Option (Outcome (IndexContainer SequentialIndex) Int) :=
  idx.call alt fun i => (i.remove fuel key).map fun (records, i) => (HeapFile.vectorAt records 0, i)

/-- `IndexContainer::search`. -/
def search (idx : IndexContainer SequentialIndex) (fuel : Nat) (alt : Alternative κ) (key : κ) :
    Option (Outcome (IndexContainer SequentialIndex) (List Int)) :=
  idx.call alt fun i => (i.search fuel key).map (.ok ·, i)

/-- `IndexContainer::add`: whether something has been inserted. -/
def add (idx : IndexContainer SequentialIndex) (fuel : Nat) (alt : Alternative κ) (key : κ)
    (pos : Int) : Option (Outcome (IndexContainer SequentialIndex) Bool) :=
  idx.call alt fun i => (i.add fuel key pos).map fun (res, i) => (res.map fun rs => !rs.isEmpty, i)

end IndexContainer

/-- `key_cast_and_execute` with one value: `func` on the cast value, if it is called. -/
def keyCastAndExecute {β : Type} (type : FieldType) (attributeValue : Bytes)
    (func : ∀ {κ : Type} [KeyType κ], Alternative κ → κ → β) : Except Exn (Option β) :=
  match type with
  | .int => (stoi attributeValue).map fun keyValue => some (func .int keyValue)
  | .float => (FloatType.stof attributeValue).map fun keyValue => some (func .float keyValue)
  | .bool | .varchar _ => .ok none

/-- `key_cast_and_execute` with two values. -/
def keyCastAndExecute₂ {β : Type} (type : FieldType) (att1 att2 : Bytes)
    (func : ∀ {κ : Type} [KeyType κ], Alternative κ → κ → κ → β) : Except Exn (Option β) :=
  match type with
  | .int => do
    let value1 ← stoi att1
    let value2 ← stoi att2
    return some (func .int value1 value2)
  | .float => do
    let value1 ← FloatType.stof att1
    let value2 ← FloatType.stof att2
    return some (func .float value1 value2)
  | .bool => .ok none
  | .varchar _ => .ok (some (func .string att1 att2))

/-! ## The state -/

/-- `DBEngine`. `prevPos` is the static variable of the `pos_getter` of `create_index`, from its
first call on. -/
structure DBEngine where
  tablesRaw : KeyedMap Bytes HeapFile := ∅
  avlIndexes : KeyedMap Index (IndexContainer AVLIndex) := ∅
  isamIndexes : KeyedMap Index (IndexContainer ISAM) := ∅
  sequentialIndexes : KeyedMap Index (IndexContainer SequentialIndex) := ∅
  prevPos : Option Int := none

namespace DBEngine

/-- `m_tables_raw.at`. -/
def tableAt (e : DBEngine) (tableName : Bytes) : Except Exn HeapFile :=
  match e.tablesRaw.lookup tableName with
  | some table => .ok table
  | none => .error (.outOfRange "unordered_map::at")

/-- The engine with another table under a name. -/
def setTable (e : DBEngine) (tableName : Bytes) (table : HeapFile) : DBEngine :=
  { e with tablesRaw := e.tablesRaw.replace tableName table }

/-- The engine with another sequential index in a place. -/
def setSequential (e : DBEngine) (index : Index) (idx : IndexContainer SequentialIndex) :
    DBEngine :=
  { e with sequentialIndexes := e.sequentialIndexes.replace index idx }

/-! ## Tables -/

/-- `create_table`. -/
def createTable (e : DBEngine) (tableName primaryKey : Bytes) (types : List FieldType)
    (attributeNames : List Bytes) : Outcome DBEngine Bool :=
  if tableName ∈ e.tablesRaw then (.ok false, e)
  else
    let heapFile : HeapFile :=
      { attributeNames, attributeTypes := types, primaryKey }
    let e := { e with tablesRaw := e.tablesRaw.emplace tableName heapFile }
    let emplace idx : DBEngine :=
      { e with sequentialIndexes := e.sequentialIndexes.emplace ⟨tableName, primaryKey⟩ idx }
    match heapFile.getType primaryKey with
    | .error ex => (.error ex, e)
    | .ok .int => (.ok true, emplace (.int (.createFile true)))
    | .ok .float => (.ok true, emplace (.float (.createFile true)))
    | .ok (.varchar _) => (.ok true, emplace (.string (.createFile true)))
    | .ok .bool => (.ok true, e)

/-- A loop of `drop_table`: the entries of the table in one of the maps are erased from
`m_avl_indexes`. -/
def eraseEach (tableName : Bytes) (indexes : List Index)
    (avlIndexes : KeyedMap Index (IndexContainer AVLIndex)) :
    KeyedMap Index (IndexContainer AVLIndex) :=
  indexes.foldl (fun m idx => if idx.table = tableName then m.erase idx else m) avlIndexes

/-- `drop_table`. It is undefined, and there is no result, when the first loop erases an entry of
the map that it goes through. -/
def dropTable (e : DBEngine) (tableName : Bytes) : Option DBEngine :=
  if e.avlIndexes.keys.any (·.table = tableName) then none
  else
    let avlIndexes := eraseEach tableName e.isamIndexes.keys e.avlIndexes
    let avlIndexes := eraseEach tableName e.sequentialIndexes.keys avlIndexes
    some { e with tablesRaw := e.tablesRaw.erase tableName, avlIndexes }

/-! ## Rows -/

/-- The loop of `add` through `m_sequential_indexes`, and whether the key has been inserted. One
entry at most is that of the table and the key. -/
def addKey (e : DBEngine) (fuel : Nat) (tableName : Bytes) (type : FieldType) (key : Attribute)
    (insertedPos : Int) : Option (Outcome DBEngine Bool) :=
  match e.sequentialIndexes.lookup ⟨tableName, key.name⟩ with
  | none => some (.ok false, e)
  | some idx =>
    match keyCastAndExecute type key.value fun alt keyVal => idx.add fuel alt keyVal insertedPos with
    | .error ex => some (.error ex, e)
    | .ok none => some (.ok false, e)
    | .ok (some response) =>
      response.map fun (res, idx) => (res, e.setSequential ⟨tableName, key.name⟩ idx)

/-- The end of `add`: the row itself, once its key has been inserted. -/
def addRow (tableName : Bytes) (record : Record) : Outcome DBEngine Bool → Outcome DBEngine Bool
  | (.error ex, e) => (.error ex, e)
  | (.ok false, e) => (.error (.runtimeError "Record already exists"), e)
  | (.ok true, e) =>
    match e.tableAt tableName with
    | .error ex => (.error ex, e)
    | .ok table =>
      let (res, table) := table.add record
      (res.map fun _ => true, e.setTable tableName table)

/-- `add`. -/
def add (e : DBEngine) (fuel : Nat) (tableName : Bytes) (value : List Bytes) :
    Option (Outcome DBEngine Bool) :=
  let record : Record := { fields := value }
  match e.tableAt tableName with
  | .error ex => some (.error ex, e)
  | .ok table =>
    match table.getKey record with
    | .error ex => some (.error ex, e)
    | .ok (type, key) =>
      (e.addKey fuel tableName type key table.nextPos).map (addRow tableName record)

/-- The loop of `remove` through `m_sequential_indexes`: every index of the table removes the key,
and the position that the last one reports stays. -/
def removeKey (fuel : Nat) (tableName : Bytes) (key : Attribute) :
    List Index → DBEngine → Int → Option (Outcome DBEngine Int)
  | [], e, rawPos => some (.ok rawPos, e)
  | index :: indexes, e, rawPos =>
    match e.sequentialIndexes.lookup index with
    | none => removeKey fuel tableName key indexes e rawPos
    | some idx =>
      if index.table ≠ tableName then removeKey fuel tableName key indexes e rawPos
      else
        let cast := do
          let type ← (← e.tableAt tableName).getType key.name
          keyCastAndExecute type key.value fun alt keyValue => idx.remove fuel alt keyValue
        match cast with
        | .error ex => some (.error ex, e)
        | .ok none => removeKey fuel tableName key indexes e rawPos
        | .ok (some response) => do
          match ← response with
          | (.error ex, idx) => some (.error ex, e.setSequential index idx)
          | (.ok pos, idx) =>
            removeKey fuel tableName key indexes (e.setSequential index idx) pos

/-- `remove`. A `std::streampos` that nothing has been assigned to is `0`. -/
def remove [Unspecified] (e : DBEngine) (fuel : Nat) (tableName : Bytes) (key : Attribute) :
    Option (Outcome DBEngine Bool) := do
  match ← removeKey fuel tableName key (Unspecified.order e.sequentialIndexes.keys) e 0 with
  | (.error ex, e) => some (.error ex, e)
  | (.ok rawPos, e) =>
    if rawPos = -1 then some (.ok false, e)
    else match e.tableAt tableName with
      | .error ex => some (.error ex, e)
      | .ok table =>
        let (res, table) := table.remove rawPos
        some (res.map fun _ => true, e.setTable tableName table)

/-! ## Queries -/

/-- The loop over the positions: the rows there that satisfy `expr`. -/
def readRows (expr : Record → Bool) : List Int → HeapFile → List Record × HeapFile
  | [], table => ([], table)
  | pos :: positions, table =>
    let (record, table) := table.read pos
    let (response, table) := readRows expr positions table
    (if expr record then record :: response else response, table)

/-- The end of `search` and `range_search`. -/
def answer (e : DBEngine) (tableName : Bytes) (table : HeapFile) (positions : List Int)
    (expr : Record → Bool) (selectedAttributes : List Bytes) : Outcome DBEngine (List Record) :=
  let (response, table) := readRows expr positions table
  (table.filter response selectedAttributes, e.setTable tableName table)

/-- `load`. -/
def load (e : DBEngine) (tableName : Bytes) (selectedAttributes : List Bytes) :
    Outcome DBEngine (List Record) :=
  match e.tableAt tableName with
  | .error ex => (.error ex, e)
  | .ok table =>
    let (response, table) := table.load
    (table.filter response selectedAttributes, e.setTable tableName table)

/-- `load` with a predicate. -/
def loadIf (e : DBEngine) (tableName : Bytes) (selectedAttributes : List Bytes)
    (expr : Record → Bool) : Outcome DBEngine (List Record) :=
  match e.load tableName selectedAttributes with
  | (.error ex, e) => (.error ex, e)
  | (.ok records, e) =>
    match e.tableAt tableName with
    | .error ex => (.error ex, e)
    | .ok table => (table.filter (records.filter expr) selectedAttributes, e)

/-- `sort_attributes`. The comparator looks up the table and the names that it is given, and is called
when there are two. -/
def sortAttributes [Unspecified] (e : DBEngine) (tableName : Bytes) (attributes : List Bytes) :
    Except Exn (List Bytes) :=
  if attributes.length < 2 then .ok attributes
  else do
    let table ← e.tableAt tableName
    let _ ← attributes.mapM table.getAttributeIdx
    return Unspecified.sort (fun name => (table.getAttributeIdx name).toOption.getD 0) attributes

section
variable [Unspecified] {κ : Type} [KeyType κ]

/-- The loop of `search`: the positions that the first index on an attribute of that name has for
the key. -/
def searchIndex (e : DBEngine) (fuel : Nat) (attributeName : Bytes) (alt : Alternative κ)
    (keyValue : κ) : Option (Except Exn (List Int)) :=
  let found := (Unspecified.order e.sequentialIndexes.keys).find? (·.attributeName = attributeName)
  match found.bind e.sequentialIndexes.lookup with
  | none => some (.ok [])
  | some idx => (idx.search fuel alt keyValue).map (·.1)

/-- `search`. -/
def search (e : DBEngine) (fuel : Nat) (tableName : Bytes) (key : Attribute)
    (expr : Record → Bool) (selectedAttributes : List Bytes) :
    Option (Outcome DBEngine (List Record)) :=
  match e.tableAt tableName with
  | .error ex => some (.error ex, e)
  | .ok table =>
    let cast := do
      let keyType ← table.getType key.name
      keyCastAndExecute keyType key.value fun alt keyValue =>
        e.searchIndex fuel key.name alt keyValue
    match cast with
    | .error ex => some (.error ex, e)
    | .ok none => some (e.answer tableName table [] expr selectedAttributes)
    | .ok (some response) => response.map fun
      | .error ex => (.error ex, e)
      | .ok positions => e.answer tableName table positions expr selectedAttributes

/-- The loop of `range_search`: every index on an attribute of that name answers, and the positions
of the last one stay. -/
def rangeSearchIndex (e : DBEngine) (fuel : Nat) (attributeName : Bytes) (alt : Alternative κ)
    (first last : κ) : List Index → List Int → Option (Except Exn (List Int))
  | [], positions => some (.ok positions)
  | index :: indexes, positions =>
    match e.sequentialIndexes.lookup index with
    | none => rangeSearchIndex e fuel attributeName alt first last indexes positions
    | some idx =>
      if index.attributeName ≠ attributeName then
        rangeSearchIndex e fuel attributeName alt first last indexes positions
      else do
        match ← idx.rangeSearch fuel alt first last with
        | (.error ex, _) => some (.error ex)
        | (.ok positions, _) =>
          rangeSearchIndex e fuel attributeName alt first last indexes positions

omit [Unspecified] [FloatType] [KeyType κ] in
/-- The bounds of `range_search` once the limits have been replaced. -/
def rangeBounds (beginKey endKey : Attribute) : Except Exn (Attribute × Attribute) :=
  if beginKey.name ≠ endKey.name ∧ (endKey ≠ keyLimitsMin ∧ endKey ≠ keyLimitsMax) ∧
      beginKey ≠ keyLimitsMin ∧ beginKey ≠ keyLimitsMax then
    .error (.runtimeError "Cant apply range_search to different attributes")
  else
    let beginKey := if beginKey = keyLimitsMin then ⟨endKey.name, ascii "-2147483648"⟩ else beginKey
    let endKey := if endKey = keyLimitsMax then ⟨beginKey.name, ascii "2147483647"⟩ else endKey
    .ok (beginKey, endKey)

/-- `range_search`. The response of its first call of `load` is dropped. -/
def rangeSearch (e : DBEngine) (fuel : Nat) (tableName : Bytes) (beginKey endKey : Attribute)
    (expr : Record → Bool) (selectedAttributes : List Bytes) :
    Option (Outcome DBEngine (List Record)) :=
  let loaded : Outcome DBEngine Unit :=
    if beginKey = keyLimitsMin ∧ endKey = keyLimitsMax then
      let (res, e) := e.load tableName selectedAttributes
      (res.map fun _ => (), e)
    else (.ok (), e)
  match loaded with
  | (.error ex, e) => some (.error ex, e)
  | (.ok (), e) =>
    let cast := do
      let (beginKey, endKey) ← rangeBounds beginKey endKey
      let keyType ← (← e.tableAt tableName).getType beginKey.name
      keyCastAndExecute₂ keyType beginKey.value endKey.value fun alt first last =>
        e.rangeSearchIndex fuel beginKey.name alt first last
          (Unspecified.order e.sequentialIndexes.keys) []
    match cast, e.tableAt tableName with
    | .error ex, _ => some (.error ex, e)
    | _, .error ex => some (.error ex, e)
    | .ok none, .ok table => some (e.answer tableName table [] expr selectedAttributes)
    | .ok (some response), .ok table => response.map fun
      | .error ex => (.error ex, e)
      | .ok positions => e.answer tableName table positions expr selectedAttributes

end

/-! ## Indexes -/

/-- `Index_t`. -/
inductive IndexType
  | avl
  | sequential
  | isam
deriving DecidableEq, Repr

section
variable {κ : Type}

omit [FloatType] in
/-- `pos_getter`, the positions that `create_index` gives to the rows: a static variable that
starts, in the first call of all, at minus the record size. -/
def posGetter (recordSize : Nat) (prevPos : Option Int) : Int :=
  prevPos.getD (-(recordSize : Int)) + recordSize

omit [FloatType] in
/-- The `std::transform` of `create_index`: the keys of the records and their positions, and the
static variable. -/
def keyValues (cast : Bytes → Except Exn κ) (recordSize : Nat) :
    List Record → Option Int → Except Exn (List (κ × Int)) × Option Int
  | [], prevPos => (.ok [], prevPos)
  | record :: records, prevPos =>
    match (HeapFile.vectorAt record.fields 0).bind cast with
    | .error ex => (.error ex, prevPos)
    | .ok key =>
      let pos := posGetter recordSize prevPos
      let (res, prevPos) := keyValues cast recordSize records (some pos)
      (res.map ((key, pos) :: ·), prevPos)

/-- `at` and `bulk_insert` on an entry of one of the maps. -/
def bulkInto {I : Type → Type} {β : Type} [KeyType κ] (m : KeyedMap Index (IndexContainer I))
    (index : Index) (alt : Alternative κ) (bulkInsert : I κ → Option (Outcome (I κ) β)) :
    Option (Outcome (KeyedMap Index (IndexContainer I)) Unit) :=
  match m.lookup index with
  | none => some (.error (.outOfRange "unordered_map::at"), m)
  | some idx =>
    (idx.call alt bulkInsert).map fun (res, idx) => (res.map fun _ => (), m.replace index idx)

variable [Unspecified] [KeyType κ] [IntCast κ]

/-- The `switch` of `create_index` on the type of the index. Each `case` looks for an AVL index. -/
def bulkIndex (e : DBEngine) (fuel : Nat) (index : Index) (indexType : IndexType)
    (alt : Alternative κ) (keyValues : List (κ × Int)) : Option (Outcome DBEngine Unit) :=
  if index ∈ e.avlIndexes then some (.error (.invalidArgument "Index already exists"), e)
  else match indexType with
    | .avl =>
      (bulkInto (e.avlIndexes.emplace index (alt.make (.initIndex false))) index alt
        (·.bulkInsert fuel keyValues)).map fun (res, m) => (res, { e with avlIndexes := m })
    | .sequential =>
      (bulkInto (e.sequentialIndexes.emplace index (alt.make (.createFile false))) index alt
        (some <| ·.bulkInsert (Unspecified.sort (·.1)) keyValues)).map
          fun (res, m) => (res, { e with sequentialIndexes := m })
    | .isam =>
      (bulkInto (e.isamIndexes.emplace index (alt.make .create)) index alt
        (·.bulkInsert (Unspecified.sort (·.key)) Unspecified.memory fuel keyValues)).map
          fun (res, m) => (res, { e with isamIndexes := m })

/-- What `key_cast_and_execute` calls in `create_index`. -/
def loadIndex (e : DBEngine) (fuel : Nat) (index : Index) (indexType : IndexType)
    (alt : Alternative κ) (cast : Bytes → Except Exn κ) (recordSize : Nat) :
    Option (Outcome DBEngine Unit) :=
  match e.load index.table [index.attributeName] with
  | (.error ex, e) => some (.error ex, e)
  | (.ok records, e) =>
    match keyValues cast recordSize records e.prevPos with
    | (.error ex, prevPos) => some (.error ex, { e with prevPos })
    | (.ok keys, prevPos) => { e with prevPos }.bulkIndex fuel index indexType alt keys

end

/-- `create_index`. The text from `get_sample_value` casts to the type it is for, and only chooses
the key type. -/
def createIndex [Unspecified] [IntCast FloatType.Value] (e : DBEngine) (fuel : Nat)
    (tableName columnName : Bytes) (indexType : IndexType) : Option (Outcome DBEngine Unit) :=
  match e.tableAt tableName with
  | .error ex => some (.error ex, e)
  | .ok table =>
    let index : Index := ⟨tableName, columnName⟩
    match table.getType columnName with
    | .error ex => some (.error ex, e)
    | .ok .bool => some (.error (.invalidArgument "Bool can't be indexed"), e)
    | .ok .int => e.loadIndex fuel index indexType .int stoi table.getRecordSize
    | .ok .float => e.loadIndex fuel index indexType .float FloatType.stof table.getRecordSize
    | .ok (.varchar _) => some (.ok (), e)

end DBEngine

end DbEngine

end Rdbms
