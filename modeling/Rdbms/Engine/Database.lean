import Rdbms.Engine.Drop
import Rdbms.Heap.Load

/-!
# The database

What the engine is for, apart from its files: tables with a schema and rows, no two of them with the
same primary key, and queries for the rows with a number between two in a column. A query sees the
rows that the index on its column has been told of: the one on the primary key is told of every row,
and any other only when it is made, or made once more as long as it knows none.
-/

namespace Rdbms

namespace DbEngine

/-- The columns of a table that takes rows: at most 256 with pairwise different names, of rows that
fit into the record size, and one of them an `INT` for the primary key. -/
structure Schema where
  names : List Bytes
  types : List FieldType
  primaryKey : Bytes
  nodup : names.Nodup
  length : types.length = names.length
  few : names.length ≤ 256
  fits : (types.map FieldType.size).sum ≤ 255
  int : types[names.idxOf primaryKey]? = some .int

namespace Schema
variable (s : Schema)

/-- The position of a column. -/
def column (name : Bytes) : Nat := s.names.idxOf name

/-- The type of a column. -/
def type? (name : Bytes) : Option FieldType := s.types[s.column name]?

/-- The primary key of a row. -/
def key (row : List Bytes) : Except Exn Int :=
  ({ fields := row } : Record).intAt (s.column s.primaryKey)

/-- A record with the selected columns. -/
def project (selected : List Bytes) (record : Record) : Record :=
  { record with
    fields := ((s.names.zip record.fields).filter (·.1 ∈ selected)).map (·.2) }

end Schema

/-- The rows with a number in a column, with this number. -/
def numbered (i : Nat) (rows : List (List Bytes)) : List (Int × List Bytes) :=
  rows.filterMap fun row => (({ fields := row } : Record).intAt i).toOption.map (·, row)

/-- A query: the rows with a number between two in a column that satisfy a predicate, cut down to the
selected columns. The numbers are given as texts. -/
structure RangeQuery where
  name : Bytes
  first : Bytes
  last : Bytes
  expr : Record → Bool
  selected : List Bytes

/-- The query that an operation makes: a search for a key is one for a range, and a limit of a range
stands for a number and for the column of the other bound. -/
def DBEngine.TableOp.query : DBEngine.TableOp → Option (Except Exn RangeQuery)
  | .search key expr selected => some (.ok ⟨key.name, key.value, key.value, expr, selected⟩)
  | .rangeSearch beginKey endKey expr selected =>
    some ((DBEngine.rangeBounds beginKey endKey).map fun bounds =>
      ⟨bounds.1.name, bounds.1.value, bounds.2.value, expr, selected⟩)
  | _ => none

section
variable [FloatType]

/-- The bounds of a query on a column of this type. Only numbers of `INT` columns are looked up. -/
def FieldType.castBounds (type : FieldType) (first last : Bytes) :
    Except Exn (Option (Int × Int)) :=
  match type with
  | .int => do
    let lo ← stoi first
    let hi ← stoi last
    return some (lo, hi)
  | .float => do
    let _ ← FloatType.stof first
    let _ ← FloatType.stof last
    return none
  | .bool | .varchar _ => .ok none

/-! ## Tables -/

/-- A table: its schema, its rows in the order in which they came in, and for each attribute with a
sequential index the rows that the index knows. -/
structure Table where
  schema : Schema
  rows : List (List Bytes)
  indexes : KeyedMap Bytes (List (List Bytes))
  avl : List Bytes
  accepts : ∀ row ∈ rows, rowCodec.Accepts schema.types row
  unique : rows.Pairwise fun a b => schema.key a ≠ schema.key b
  primary : indexes.lookup schema.primaryKey = some rows
  known_prefix : ∀ name known, indexes.lookup name = some known → known <+: rows
  known_int : ∀ name known, indexes.lookup name = some known → schema.type? name = some .int

namespace Table

/-- A new table. -/
def create (s : Schema) : Table where
  schema := s
  rows := []
  indexes := KeyedMap.emplace ∅ s.primaryKey []
  avl := []
  accepts _ h := absurd h List.not_mem_nil
  unique := .nil
  primary := KeyedMap.lookup_emplace_self
  known_prefix name known h := by
    by_cases hname : name = s.primaryKey
    · subst hname
      cases KeyedMap.lookup_emplace_self.symm.trans h
      exact List.prefix_refl _
    · cases (KeyedMap.lookup_emplace_ne hname).symm.trans h
  known_int name known h := by
    by_cases hname : name = s.primaryKey
    · subst hname
      exact s.int
    · cases (KeyedMap.lookup_emplace_ne hname).symm.trans h

variable (t : Table)

/-- The rows that the index on an attribute knows. -/
def known (name : Bytes) : List (List Bytes) := (t.indexes.lookup name).getD []

/-- The rows that an index knows. -/
theorem known_of_lookup {name : Bytes} {rows : List (List Bytes)}
    (h : t.indexes.lookup name = some rows) : t.known name = rows := by
  rw [known, h, Option.getD_some]

/-- A row is added, and the index on the primary key is told. -/
def insert (row : List Bytes) (haccepts : rowCodec.Accepts t.schema.types row)
    (hnew : ∀ other ∈ t.rows, t.schema.key other ≠ t.schema.key row) : Table where
  schema := t.schema
  rows := t.rows ++ [row]
  indexes := t.indexes.replace t.schema.primaryKey (t.rows ++ [row])
  avl := t.avl
  accepts r hr := by
    rcases List.mem_append.1 hr with hr | hr
    · exact t.accepts r hr
    · exact List.mem_singleton.1 hr ▸ haccepts
  unique := by
    refine List.pairwise_append.2 ⟨t.unique, List.pairwise_singleton _ _, fun a ha b hb => ?_⟩
    exact List.mem_singleton.1 hb ▸ hnew a ha
  primary := KeyedMap.lookup_replace_self (by simp [t.primary])
  known_prefix name known h := by
    by_cases hname : name = t.schema.primaryKey
    · subst hname
      cases (KeyedMap.lookup_replace_self (by simp [t.primary])).symm.trans h
      exact List.prefix_refl _
    · rw [KeyedMap.lookup_replace_ne hname] at h
      exact (t.known_prefix name known h).trans (List.prefix_append _ _)
  known_int name known h := by
    by_cases hname : name = t.schema.primaryKey
    · subst hname
      exact t.schema.int
    · rw [KeyedMap.lookup_replace_ne hname] at h
      exact t.known_int name known h

/-- What the index on an attribute knows once it has been made: one that is there is not made again,
but told of the rows if it knows none. -/
def told (name : Bytes) : List (List Bytes) := if t.known name = [] then t.rows else t.known name

/-- The index on the primary key is told of every row. -/
theorem told_primary : t.told t.schema.primaryKey = t.rows := by
  rw [told, t.known_of_lookup t.primary, ite_self]

/-- A sequential index is made. -/
def index (name : Bytes) (htype : t.schema.type? name = some .int) : Table where
  schema := t.schema
  rows := t.rows
  indexes := (t.indexes.emplace name []).replace name (t.told name)
  avl := t.avl
  accepts := t.accepts
  unique := t.unique
  primary := by
    by_cases hname : t.schema.primaryKey = name
    · subst hname
      rw [KeyedMap.lookup_replace_self (by simp [KeyedMap.lookup_emplace_self]), t.told_primary]
    · rw [KeyedMap.lookup_replace_ne hname, KeyedMap.lookup_emplace_ne hname]
      exact t.primary
  known_prefix name' known h := by
    by_cases hname : name' = name
    · subst hname
      rw [KeyedMap.lookup_replace_self (by simp [KeyedMap.lookup_emplace_self])] at h
      cases h
      rw [told]
      split_ifs
      · exact List.prefix_refl _
      · rw [Table.known]
        cases hold : t.indexes.lookup name' with
        | none => exact List.nil_prefix
        | some rows => exact t.known_prefix name' rows hold
    · rw [KeyedMap.lookup_replace_ne hname, KeyedMap.lookup_emplace_ne hname] at h
      exact t.known_prefix name' known h
  known_int name' known h := by
    by_cases hname : name' = name
    · subst hname
      exact htype
    · rw [KeyedMap.lookup_replace_ne hname, KeyedMap.lookup_emplace_ne hname] at h
      exact t.known_int name' known h

/-- The rows as records, in their normal form. -/
def records (rows : List (List Bytes)) : List Record :=
  rows.map fun row => ({ fields := row } : Record).norm t.schema.types

/-- The replies that a query may get. The rows come in the order of their numbers, and among equal
numbers in any order. -/
inductive Replies (t : Table) (q : RangeQuery) : Except Exn DBEngine.Reply → Prop
  | noColumn (h : q.name ∉ t.schema.names) :
      Replies t q (.error (.runtimeError "Attribute not found"))
  | noNumber {type : FieldType} {ex : Exn} (htype : t.schema.type? q.name = some type)
      (hcast : type.castBounds q.first q.last = .error ex) : Replies t q (.error ex)
  | notLookedUp {type : FieldType} (htype : t.schema.type? q.name = some type)
      (hcast : type.castBounds q.first q.last = .ok none) : Replies t q (.ok (.rows []))
  | found {type : FieldType} {lo hi : Int} {found : List (Int × List Bytes)}
      (htype : t.schema.type? q.name = some type)
      (hcast : type.castBounds q.first q.last = .ok (some (lo, hi)))
      (hperm : found.Perm ((numbered (t.schema.column q.name) (t.known q.name)).filter
        fun p => lo ≤ p.1 ∧ p.1 ≤ hi))
      (hsorted : found.Pairwise fun p p' => p.1 ≤ p'.1) :
      Replies t q (.ok (.rows (((t.records (found.map (·.2))).filter q.expr).map
        (t.schema.project q.selected))))

/-- What a call that makes an index comes to. -/
inductive Indexes (t : Table) (name : Bytes) :
    DBEngine.IndexType → Except Exn DBEngine.Reply → Table → Prop
  | noColumn (kind : DBEngine.IndexType) (h : name ∉ t.schema.names) :
      Indexes t name kind (.error (.runtimeError "Attribute not found")) t
  | bool (kind : DBEngine.IndexType) (h : t.schema.type? name = some .bool) :
      Indexes t name kind (.error (.invalidArgument "Bool can't be indexed")) t
  | varchar (kind : DBEngine.IndexType) {size : UInt16} (h : t.schema.type? name = some (.varchar size)) :
      Indexes t name kind (.ok .unit) t
  | refused (kind : DBEngine.IndexType) (h : t.schema.type? name = some .int) (havl : name ∈ t.avl) :
      Indexes t name kind (.error (.invalidArgument "Index already exists")) t
  | avl (h : t.schema.type? name = some .int) (havl : name ∉ t.avl) :
      Indexes t name .avl (.ok .unit) { t with avl := name :: t.avl }
  | sequential (h : t.schema.type? name = some .int) (havl : name ∉ t.avl) :
      Indexes t name .sequential (.ok .unit) (t.index name h)
  | isam (h : t.schema.type? name = some .int) (havl : name ∉ t.avl)
      (hrows : ISAM.maxRecords ≤ t.rows.length) : Indexes t name .isam (.ok .unit) t
  | tooFew (h : t.schema.type? name = some .int) (havl : name ∉ t.avl)
      (hrows : t.rows.length < ISAM.maxRecords) :
      Indexes t name .isam (.error (.runtimeError
        "It's necesary have more than 81 in order to create the ISAM")) t

/-- What an operation on a table comes to: its reply, and the table after it. -/
inductive Answers (t : Table) : DBEngine.TableOp → Except Exn DBEngine.Reply → Table → Prop
  | added {row : List Bytes} (haccepts : rowCodec.Accepts t.schema.types row)
      (hnew : ∀ other ∈ t.rows, t.schema.key other ≠ t.schema.key row) :
      Answers t (.add row) (.ok (.flag true)) (t.insert row haccepts hnew)
  | refused {row other : List Bytes} (hother : other ∈ t.rows)
      (hkey : t.schema.key other = t.schema.key row) :
      Answers t (.add row) (.error (.runtimeError "Couldn't add")) t
  | load (selected : List Bytes) :
      Answers t (.load selected) (.ok (.rows ((t.records t.rows).map (t.schema.project selected)))) t
  | loadIf (selected : List Bytes) (expr : Record → Bool) :
      Answers t (.loadIf selected expr)
        (.ok (.rows (((t.records t.rows).map (t.schema.project selected)).filter expr))) t
  | query {op : DBEngine.TableOp} {q : RangeQuery} {reply : Except Exn DBEngine.Reply}
      (hq : op.query = some (.ok q)) (h : t.Replies q reply) : Answers t op reply t
  | createIndex {name : Bytes} {kind : DBEngine.IndexType} {reply : Except Exn DBEngine.Reply} {t' : Table}
      (h : t.Indexes name kind reply t') : Answers t (.createIndex name kind) reply t'

end Table

/-! ## The database -/

/-- The tables by their names. -/
abbrev Database := KeyedMap Bytes Table

/-- A call: a new table, the end of one, or an operation on one. -/
inductive DatabaseCall
  | createTable (tableName : Bytes) (schema : Schema)
  | dropTable (tableName : Bytes)
  | perform (tableName : Bytes) (op : DBEngine.TableOp)

/-- What a call comes to. -/
inductive Database.Answers (db : Database) :
    DatabaseCall → Except Exn DBEngine.Reply → Database → Prop
  | created {tableName : Bytes} {s : Schema} (h : tableName ∉ db) :
      Answers db (.createTable tableName s) (.ok (.flag true)) (db.emplace tableName (.create s))
  | taken {tableName : Bytes} {s : Schema} (h : tableName ∈ db) :
      Answers db (.createTable tableName s) (.ok (.flag false)) db
  | dropped (tableName : Bytes) :
      Answers db (.dropTable tableName) (.ok .unit) (db.erase tableName)
  | badBounds {tableName : Bytes} {op : DBEngine.TableOp} {ex : Exn}
      (h : op.query = some (.error ex)) : Answers db (.perform tableName op) (.error ex) db
  | noTable {tableName : Bytes} {op : DBEngine.TableOp} (h : tableName ∉ db)
      (hq : ∀ ex, op.query ≠ some (.error ex)) :
      Answers db (.perform tableName op) (.error (.outOfRange "unordered_map::at")) db
  | onTable {tableName : Bytes} {op : DBEngine.TableOp} {t t' : Table}
      {reply : Except Exn DBEngine.Reply} (hl : db.lookup tableName = some t)
      (h : t.Answers op reply t') :
      Answers db (.perform tableName op) reply (db.replace tableName t')

/-- The calls on an empty database, their replies, and the database after them. -/
inductive Database.Run :
    List DatabaseCall → List (Except Exn DBEngine.Reply) → Database → Prop
  | start : Run [] [] ∅
  | call {calls : List DatabaseCall} {replies : List (Except Exn DBEngine.Reply)}
      {db db' : Database} {c : DatabaseCall} {reply : Except Exn DBEngine.Reply}
      (run : Run calls replies db) (h : Database.Answers db c reply db') :
      Run (calls ++ [c]) (replies ++ [reply]) db'

/-- The row that an operation has added. -/
def DBEngine.TableOp.added? : DBEngine.TableOp → Except Exn DBEngine.Reply → Option (List Bytes)
  | .add row, .ok (.flag true) => some row
  | _, _ => none

/-- The rows of a table after a call. -/
def DatabaseCall.rowsAfter (tableName : Bytes) (rows : List (List Bytes)) (c : DatabaseCall)
    (reply : Except Exn DBEngine.Reply) : List (List Bytes) :=
  match c with
  | .createTable _ _ => rows
  | .dropTable name => if name = tableName then [] else rows
  | .perform name op => if name = tableName then rows ++ (op.added? reply).toList else rows

namespace Database
variable {db db' : Database} {calls : List DatabaseCall}
  {replies : List (Except Exn DBEngine.Reply)} {c : DatabaseCall} {reply : Except Exn DBEngine.Reply}
  {tableName : Bytes} {t t' : Table} {op : DBEngine.TableOp}

/-- The rows that calls have added to a table since it was last dropped, in the order of the calls. -/
def added (tableName : Bytes) (calls : List DatabaseCall)
    (replies : List (Except Exn DBEngine.Reply)) : List (List Bytes) :=
  (calls.zip replies).foldl (fun rows p => p.1.rowsAfter tableName rows p.2) []

/-- The rows of a table, if there is one of that name. -/
def rowsOf (db : Database) (tableName : Bytes) : List (List Bytes) :=
  ((db.lookup tableName).map Table.rows).getD []

/-- An operation adds a row at the end, or none. -/
theorem rows_of_answers (h : t.Answers op reply t') : t'.rows = t.rows ++ (op.added? reply).toList := by
  cases h with
  | added => rfl
  | refused | load | loadIf => exact (List.append_nil _).symm
  | query hq =>
    cases op with
    | search | rangeSearch => exact (List.append_nil _).symm
    | _ => cases hq
  | createIndex hindex => cases hindex <;> exact (List.append_nil _).symm

/-- The rows of a table that is there. -/
theorem rowsOf_eq_of_lookup (h : db.lookup tableName = some t) : db.rowsOf tableName = t.rows := by
  rw [rowsOf, h]
  rfl

/-- What a call makes of the rows of a table. -/
theorem Answers.rowsOf_eq (h : Database.Answers db c reply db') (tableName : Bytes) :
    db'.rowsOf tableName = c.rowsAfter tableName (db.rowsOf tableName) reply := by
  have hnil : ∀ rows : List (List Bytes), rows = rows ++ (none : Option (List Bytes)).toList :=
    fun rows => (List.append_nil rows).symm
  cases h with
  | @created name s hnew =>
    by_cases hname : tableName = name
    · subst hname
      rw [DatabaseCall.rowsAfter, rowsOf, rowsOf, KeyedMap.lookup_emplace_self,
        AList.lookup_eq_none.2 hnew]
      rfl
    · rw [DatabaseCall.rowsAfter, rowsOf, rowsOf, KeyedMap.lookup_emplace_ne hname]
  | taken => rfl
  | dropped name =>
    rw [DatabaseCall.rowsAfter]
    by_cases hname : name = tableName
    · subst hname
      rw [if_pos rfl, rowsOf, AList.lookup_erase]
      rfl
    · rw [if_neg hname, rowsOf, rowsOf, AList.lookup_erase_ne (Ne.symm hname)]
  | @badBounds name op ex hex =>
    have hadded : op.added? (.error ex) = none := by cases op <;> rfl
    rw [DatabaseCall.rowsAfter, hadded, ← hnil, ite_self]
  | @noTable name op =>
    have hadded : op.added? (.error (.outOfRange "unordered_map::at")) = none := by
      cases op <;> rfl
    rw [DatabaseCall.rowsAfter, hadded, ← hnil, ite_self]
  | @onTable name op t t' reply hl hanswers =>
    rw [DatabaseCall.rowsAfter]
    by_cases hname : name = tableName
    · subst hname
      have hself : (db.replace name t').lookup name = some t' :=
        KeyedMap.lookup_replace_self (by simp [hl])
      rw [if_pos rfl, rowsOf_eq_of_lookup hl, rowsOf_eq_of_lookup hself, rows_of_answers hanswers]
    · have hother : (db.replace name t').lookup tableName = db.lookup tableName :=
        KeyedMap.lookup_replace_ne fun heq => hname heq.symm
      rw [if_neg hname, rowsOf, hother]
      rfl

/-- Every call has a reply. -/
theorem Run.length_eq (h : Run calls replies db) : calls.length = replies.length := by
  induction h with
  | start => rfl
  | call _ _ ih =>
    rw [List.length_append, List.length_append, ih]
    rfl

/-- The rows of a table are those that have been added to it since it was last dropped. -/
theorem Run.rowsOf_eq (h : Run calls replies db) (tableName : Bytes) :
    db.rowsOf tableName = added tableName calls replies := by
  induction h with
  | start => rfl
  | @call calls replies db db' c reply run hanswers ih =>
    rw [hanswers.rowsOf_eq, ih, added, added, List.zip_append run.length_eq, List.foldl_append]
    rfl

end Database

end

end DbEngine

end Rdbms
