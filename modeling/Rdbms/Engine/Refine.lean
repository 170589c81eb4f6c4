import Rdbms.Engine.Indexed

/-!
# The engine as a database

An engine represents a database when it holds each of its tables and no others (`Represents`). Every call that is allowed comes back with a reply that the database gives, and the
engine represents the database after the call (`Represents.step`), so a run of calls on the engine is
one on the database (`database_of_run`). Not allowed are calls of `remove` on a table, rows that
cannot be written, keys in front of an overflow record that the header of the index points to, queries
by an attribute of a name on which another table has an index, columns that are not selected in the
order of the table, indexes on `FLOAT` columns, an index that is to be told of rows when the
positions of the rows are taken, the end of a table with an AVL index, and a new table of a name that
indexes of a dropped table still have.
-/

namespace Rdbms

namespace DbEngine

section
variable [FloatType] {e e' : DBEngine} {tableName other name : Bytes} {table : HeapFile} {t : Table}
  {db db' : Database} {s : Schema}

namespace DBEngine

/-- The engine holds the tables of the database, and no others. -/
structure Represents (e : DBEngine) (db : Database) : Prop where
  held : ∀ tableName t, db.lookup tableName = some t → ∃ table, t.HeldBy e tableName table
  absent : ∀ tableName, db.lookup tableName = none → e.tablesRaw.lookup tableName = none

/-- A table of the engine. -/
theorem Represents.exists_table (h : e.Represents db)
    (hlookup : e.tablesRaw.lookup tableName = some table) :
    ∃ t, db.lookup tableName = some t ∧ t.HeldBy e tableName table := by
  cases ht : db.lookup tableName with
  | none => cases hlookup.symm.trans (h.absent tableName ht)
  | some t =>
    obtain ⟨table', hheld⟩ := h.held tableName t ht
    cases hlookup.symm.trans hheld.lookup
    exact ⟨t, rfl, hheld⟩

/-- A new engine stands for no tables. -/
theorem represents_empty : ({} : DBEngine).Represents ∅ where
  held _ _ h := by cases h
  absent _ _ := rfl

/-- One table has changed. -/
theorem Represents.update (h : e.Represents db) {t' : Table}
    (hheld : t'.HeldBy e' tableName table)
    (hframe : ∀ other, other ≠ tableName → SameTable other e e')
    (hself : db'.lookup tableName = some t')
    (hother : ∀ other, other ≠ tableName → db'.lookup other = db.lookup other) :
    e'.Represents db' where
  held other t hl := by
    by_cases hne : other = tableName
    · subst hne
      cases hself.symm.trans hl
      exact ⟨table, hheld⟩
    · obtain ⟨table', hheld'⟩ := h.held other t ((hother other hne).symm.trans hl)
      exact ⟨table', hheld'.frame (hframe other hne)⟩
  absent other hl := by
    have hne : other ≠ tableName := by
      rintro rfl
      cases hself.symm.trans hl
    exact (hframe other hne).table.trans (h.absent other ((hother other hne).symm.trans hl))

/-! ## `create_table` -/

/-- The heap file of a new table. -/
theorem storedIn_create (s : Schema) : (Table.create s).StoredIn
    { attributeNames := s.names, attributeTypes := s.types, primaryKey := s.primaryKey } :=
  ⟨rfl, rfl, rfl, rfl, ⟨[], .nil, rfl⟩, rfl⟩

/-- A new table. -/
theorem NoIndexes.createTable (h : e.NoIndexes tableName) (htable : tableName ∉ e.tablesRaw)
    (s : Schema) :
    ∃ e' table, e.createTable tableName s.primaryKey s.types s.names = (.ok true, e') ∧
      (Table.create s).HeldBy e' tableName table ∧
      ∀ other, other ≠ tableName → SameTable other e e' := by
  let heapFile : HeapFile :=
    { attributeNames := s.names, attributeTypes := s.types, primaryKey := s.primaryKey }
  let index : Index := ⟨tableName, s.primaryKey⟩
  let e' : DBEngine := { e with
    tablesRaw := e.tablesRaw.emplace tableName heapFile
    sequentialIndexes := e.sequentialIndexes.emplace index (.int (.createFile true)) }
  have htype : heapFile.getType s.primaryKey = .ok .int :=
    (storedIn_create s).getType (t := .create s) s.int
  have hcreate : e.createTable tableName s.primaryKey s.types s.names = (.ok true, e') := by
    unfold DBEngine.createTable
    rw [if_neg htable]
    simp only [heapFile] at htype
    simp only [htype]
    rfl
  have hsequential : ∀ name, e.sequentialIndexes.lookup ⟨tableName, name⟩ = none := fun name =>
    AList.lookup_eq_none.2 (h ⟨tableName, name⟩ rfl).2.2
  have hself : e'.sequentialIndexes.lookup index = some (.int (.createFile true)) := by
    refine KeyedMap.lookup_emplace_self.trans ?_
    rw [hsequential, Option.getD_none]
  have hknown : (Table.create s).indexes.lookup s.primaryKey = some [] := (Table.create s).primary
  refine ⟨e', heapFile, hcreate, ?_, fun other hne => ?_⟩
  · exact {
      lookup := by
        refine KeyedMap.lookup_emplace_self.trans ?_
        rw [AList.lookup_eq_none.2 htable, Option.getD_none]
      stored := storedIn_create s
      knows := by
        intro name rows hrows
        by_cases hname : name = s.primaryKey
        · subst hname
          cases hknown.symm.trans hrows
          exact ⟨_, hself, mirrors_createFile true _ _, fun _ => rfl⟩
        · have hnone : (Table.create s).indexes.lookup name = none := KeyedMap.lookup_emplace_ne hname
          cases hnone.symm.trans hrows
      noIndex := by
        intro name hnone
        have hname : name ≠ s.primaryKey := by
          rintro rfl
          cases hknown.symm.trans hnone
        exact (KeyedMap.lookup_emplace_ne fun heq => hname (Index.mk.inj heq).2).trans
          (hsequential name)
      pk := by
        intro si hsi
        cases hself.symm.trans hsi
        rfl
      avl := fun name => iff_of_false (h ⟨tableName, name⟩ rfl).1 List.not_mem_nil
      isam := by
        intro name idx hidx
        cases (AList.lookup_eq_none.2 (h ⟨tableName, name⟩ rfl).2.1).symm.trans hidx }
  · refine ⟨KeyedMap.lookup_emplace_ne hne, fun name => ?_, fun name => .rfl, fun name => rfl⟩
    exact KeyedMap.lookup_emplace_ne fun heq => hne (Index.mk.inj heq).1

/-! ## `drop_table` -/

/-- Without an AVL index, only the table itself goes. -/
theorem dropTable_of_noAvl (h : ∀ index ∈ e.avlIndexes, index.table ≠ tableName) :
    e.dropTable tableName = some { e with tablesRaw := e.tablesRaw.erase tableName } := by
  have hkeep (indexes : List Index) : eraseEach tableName indexes e.avlIndexes = e.avlIndexes := by
    induction indexes with
    | nil => rfl
    | cons index indexes ih =>
      rw [eraseEach, List.foldl_cons]
      by_cases htable : index.table = tableName
      · have herase : e.avlIndexes.erase index = e.avlIndexes :=
          AList.ext (List.kerase_of_notMem_keys fun hmem => h index hmem htable)
        rw [if_pos htable, herase]
        exact ih
      · rw [if_neg htable]
        exact ih
  have hany : e.avlIndexes.keys.any (·.table = tableName) = false :=
    List.any_eq_false.2 fun index hmem => by simpa using h index hmem
  simp only [dropTable, hany, hkeep, Bool.false_eq_true, if_false]

/-- A table less. -/
theorem Represents.drop (h : e.Represents db) (tableName : Bytes) :
    { e with tablesRaw := e.tablesRaw.erase tableName : DBEngine }.Represents
      (db.erase tableName) where
  held other t hl := by
    have hne : other ≠ tableName := by
      rintro rfl
      cases (AList.lookup_erase other db).symm.trans hl
    rw [AList.lookup_erase_ne hne] at hl
    obtain ⟨table, hheld⟩ := h.held other t hl
    exact ⟨table, hheld.frame
      ⟨AList.lookup_erase_ne hne, fun _ => rfl, fun _ => .rfl, fun _ => rfl⟩⟩
  absent other hl := by
    by_cases hne : other = tableName
    · subst hne
      exact AList.lookup_erase _ _
    · rw [AList.lookup_erase_ne hne] at hl
      exact (AList.lookup_erase_ne hne).trans (h.absent other hl)

/-! ## Operations -/

section
variable [Unspecified] [IntCast FloatType.Value] {op : TableOp} {c : DatabaseCall} {fuel : Nat}

omit [Unspecified] [IntCast FloatType.Value] in
/-- The loop of `remove` for a table that is not there does nothing, or finds an index of its name and
then not the table. -/
theorem removeKey_of_noTable (h : e.tablesRaw.lookup tableName = none) (fuel : Nat) (key : Attribute)
    (indexes : List Index) : removeKey fuel tableName key indexes e 0 = some (.ok 0, e) ∨
      removeKey fuel tableName key indexes e 0 =
        some (.error (.outOfRange "unordered_map::at"), e) := by
  induction indexes with
  | nil => exact .inl rfl
  | cons index indexes ih =>
    rw [DBEngine.removeKey]
    cases hidx : e.sequentialIndexes.lookup index with
    | none => exact ih
    | some idx =>
      by_cases htable : index.table = tableName
      · right
        simp only [if_neg (not_not_intro htable), tableAt, h, bind, Except.bind]
      · simp only [if_pos htable]
        exact ih

/-- An operation on a table that is not there. -/
theorem perform_of_noTable (h : e.tablesRaw.lookup tableName = none) (hquery : ∀ ex, op.query ≠ some (.error ex))
    (fuel : Nat) :
    DBEngine.perform fuel tableName e op = some (.error (.outOfRange "unordered_map::at"), e) := by
  have hat : e.tableAt tableName = .error (.outOfRange "unordered_map::at") := by
    rw [tableAt, h]
  cases op with
  | add value => simp only [DBEngine.perform, DBEngine.add, hat, Option.map_some, Except.map]
  | remove key =>
    rcases removeKey_of_noTable h fuel key (Unspecified.order e.sequentialIndexes.keys) with
      hkey | hkey
    · simp only [DBEngine.perform, DBEngine.remove, hkey, Option.bind_eq_bind, Option.bind_some,
        if_neg (show (0 : Int) ≠ -1 by decide), hat, Option.map_some, Except.map]
    · simp only [DBEngine.perform, DBEngine.remove, hkey, Option.bind_eq_bind, Option.bind_some,
        Option.map_some, Except.map]
  | search key expr selected =>
    simp only [DBEngine.perform, DBEngine.search, hat, Option.map_some, Except.map]
  | rangeSearch beginKey endKey expr selected =>
    cases hbounds : rangeBounds beginKey endKey with
    | error ex =>
      refine absurd ?_ (hquery ex)
      rw [TableOp.query, hbounds]
      rfl
    | ok bounds =>
      by_cases hlimits : beginKey = keyLimitsMin ∧ endKey = keyLimitsMax
      · simp only [DBEngine.perform, DBEngine.rangeSearch, if_pos hlimits, DBEngine.load, hat,
          Option.map_some, Except.map]
      · simp only [DBEngine.perform, DBEngine.rangeSearch, if_neg hlimits, hbounds, hat, bind,
          Except.bind, Option.map_some, Except.map]
  | load selected => simp only [DBEngine.perform, DBEngine.load, hat, Except.map]
  | loadIf selected expr => simp only [DBEngine.perform, DBEngine.loadIf, DBEngine.load, hat, Except.map]
  | createIndex columnName indexType =>
    simp only [DBEngine.perform, DBEngine.createIndex, hat, Option.map_some, Except.map]

/-- Bounds of different attributes. -/
theorem perform_of_badBounds {ex : Exn} (h : op.query = some (.error ex)) (fuel : Nat) :
    e.perform fuel tableName op = some (.error ex, e) := by
  cases op with
  | rangeSearch beginKey endKey expr selected =>
    cases hbounds : rangeBounds beginKey endKey with
    | ok bounds =>
      rw [TableOp.query, hbounds] at h
      cases h
    | error ex' =>
      rw [TableOp.query, hbounds] at h
      cases h
      have hlimits : ¬ (beginKey = keyLimitsMin ∧ endKey = keyLimitsMax) := by
        rintro ⟨rfl, rfl⟩
        cases hbounds
      simp only [DBEngine.perform, DBEngine.rangeSearch, if_neg hlimits, hbounds, bind, Except.bind,
        Option.map_some, Except.map]
  | _ => cases h

/-- The operations that a table answers. -/
def AllowsOn (e : DBEngine) (tableName : Bytes) (table : HeapFile) : TableOp → Prop
  | .add row => rowCodec.Accepts table.attributeTypes row ∧ e.KeyPlaced tableName table row
  | .remove _ => False
  | .search key _ selected => e.OwnName tableName key.name ∧ table.Selects selected
  | .rangeSearch beginKey endKey _ selected => table.Selects selected ∧
    ∀ bounds, rangeBounds beginKey endKey = .ok bounds → e.OwnName tableName bounds.1.name
  | .load selected => table.Selects selected
  | .loadIf selected _ => table.Selects selected ∧ table.SelectsFirst selected
  | .createIndex columnName indexType => table.getType columnName ≠ .ok .float ∧
    (indexType = .sequential → e.IndexFits tableName table columnName)

end

end DBEngine

section
variable [Unspecified] [IntCast FloatType.Value] {op : DBEngine.TableOp}

/-- A query that is allowed. -/
theorem Table.HeldBy.queries (h : t.HeldBy e tableName table)
    (hallows : e.AllowsOn tableName table op) {q : RangeQuery} (hq : op.query = some (.ok q)) :
    ∃ res, Returns (DBEngine.perform · tableName e op) (res, e) ∧ t.Replies q res := by
  cases op with
  | search key expr selected =>
    cases hq
    obtain ⟨res, hret, hreplies⟩ := h.search hallows.1 hallows.2 expr
    exact ⟨_, hret.map _, hreplies⟩
  | rangeSearch beginKey endKey expr selected =>
    cases hbounds : DBEngine.rangeBounds beginKey endKey with
    | error ex =>
      rw [DBEngine.TableOp.query, hbounds] at hq
      cases hq
    | ok bounds =>
      rw [DBEngine.TableOp.query, hbounds] at hq
      cases hq
      obtain ⟨res, hret, hreplies⟩ := h.rangeSearch hbounds (hallows.2 bounds hbounds) hallows.1 expr
      exact ⟨_, hret.map _, hreplies⟩
  | _ => cases hq

/-- An operation that is allowed. -/
theorem Table.HeldBy.serves (h : t.HeldBy e tableName table)
    (hallows : e.AllowsOn tableName table op) (hquery : ∀ ex, op.query ≠ some (.error ex)) :
    t.Serves e tableName op := by
  have hreads {res : Except Exn DBEngine.Reply}
      (hret : Returns (DBEngine.perform · tableName e op) (res, e)) (hanswers : t.Answers op res t) :
      t.Serves e tableName op :=
    ⟨_, t, e, table, hret, hanswers, h, fun _ _ => .refl _ _⟩
  have hqueries {q : RangeQuery} (hq : op.query = some (.ok q)) : t.Serves e tableName op := by
    obtain ⟨res, hret, hreplies⟩ := h.queries hallows hq
    exact hreads hret (.query hq hreplies)
  cases op with
  | add row => exact h.add (h.stored.types ▸ hallows.1) hallows.2
  | remove key => exact hallows.elim
  | search key expr selected => exact hqueries rfl
  | rangeSearch beginKey endKey expr selected =>
    cases hbounds : DBEngine.rangeBounds beginKey endKey with
    | error ex =>
      refine absurd ?_ (hquery ex)
      rw [DBEngine.TableOp.query, hbounds]
      rfl
    | ok bounds =>
      refine hqueries (q := ⟨bounds.1.name, bounds.1.value, bounds.2.value, expr, selected⟩) ?_
      rw [DBEngine.TableOp.query, hbounds]
      rfl
  | load selected =>
    exact hreads (.of_eq fun fuel => by rw [DBEngine.perform, h.load hallows]; rfl) (.load selected)
  | loadIf selected expr =>
    exact hreads (.of_eq fun fuel => by
      rw [DBEngine.perform, h.loadIf hallows.1 hallows.2 expr]
      rfl) (.loadIf selected expr)
  | createIndex columnName indexType =>
    refine h.createIndex (fun hfloat => ?_) hallows.2
    exact hallows.1 (h.stored.getType hfloat)

namespace DBEngine

/-- A call on the engine. -/
def execute (fuel : Nat) (e : DBEngine) : DatabaseCall → Option (Outcome DBEngine Reply)
  | .createTable tableName s =>
    let (res, e) := e.createTable tableName s.primaryKey s.types s.names
    some (res.map .flag, e)
  | .dropTable tableName => (e.dropTable tableName).map fun e => (.ok .unit, e)
  | .perform tableName op => e.perform fuel tableName op

/-- The calls that are allowed. -/
def Allows (e : DBEngine) : DatabaseCall → Prop
  | .createTable tableName _ => tableName ∉ e.tablesRaw → e.NoIndexes tableName
  | .dropTable tableName => ∀ index ∈ e.avlIndexes, index.table ≠ tableName
  | .perform tableName op => ∀ table, e.tablesRaw.lookup tableName = some table →
    e.AllowsOn tableName table op

variable {c : DatabaseCall}

/-- One call. -/
theorem Represents.step (h : e.Represents db) (hallows : e.Allows c) :
    ∃ reply e' db', Returns (execute · e c) (reply, e') ∧ Database.Answers db c reply db' ∧
      e'.Represents db' := by
  cases c with
  | createTable tableName s =>
    cases hl : db.lookup tableName with
    | none =>
      have htable := AList.lookup_eq_none.1 (h.absent tableName hl)
      obtain ⟨e', table, hcreate, hheld, hframe⟩ := (hallows htable).createTable htable s
      refine ⟨.ok (.flag true), e', _, .of_eq fun fuel => ?_, .created (AList.lookup_eq_none.1 hl),
        h.update hheld hframe ?_ fun other hne => KeyedMap.lookup_emplace_ne hne⟩
      · rw [execute, hcreate]
        rfl
      · rw [KeyedMap.lookup_emplace_self, hl, Option.getD_none]
    | some t =>
      obtain ⟨table, hheld⟩ := h.held tableName t hl
      have htaken : tableName ∈ e.tablesRaw := AList.lookup_isSome.1 (hheld.lookup ▸ rfl)
      refine ⟨.ok (.flag false), e, db, .of_eq fun fuel => ?_,
        .taken (AList.lookup_isSome.1 (hl ▸ rfl)), h⟩
      rw [execute, DBEngine.createTable, if_pos htaken]
      rfl
  | dropTable tableName =>
    refine ⟨.ok .unit, _, _, .of_eq fun fuel => ?_, .dropped tableName, h.drop tableName⟩
    rw [execute, dropTable_of_noAvl hallows]
    rfl
  | perform tableName op =>
    by_cases hquery : ∃ ex, op.query = some (.error ex)
    · obtain ⟨ex, hex⟩ := hquery
      exact ⟨.error ex, e, db, .of_eq (perform_of_badBounds hex), .badBounds hex, h⟩
    · have hquery' : ∀ ex, op.query ≠ some (.error ex) := fun ex hex => hquery ⟨ex, hex⟩
      cases hl : db.lookup tableName with
      | none =>
        exact ⟨_, e, db, .of_eq (perform_of_noTable (h.absent tableName hl) hquery'),
          .noTable (AList.lookup_eq_none.1 hl) hquery', h⟩
      | some t =>
        obtain ⟨table, hheld⟩ := h.held tableName t hl
        obtain ⟨reply, t', e', table', hret, hanswers, hheld', hframe⟩ :=
          hheld.serves (hallows table hheld.lookup) hquery'
        refine ⟨reply, e', _, hret, .onTable hl hanswers,
          h.update hheld' hframe ?_ fun other hne => KeyedMap.lookup_replace_ne hne⟩
        exact KeyedMap.lookup_replace_self (by simp [hl])

/-- Runs of allowed calls from the start, with their replies. -/
inductive DatabaseRun : List DatabaseCall → List (Except Exn Reply) → DBEngine → Prop
  | start : DatabaseRun [] [] {}
  | call {calls : List DatabaseCall} {replies : List (Except Exn Reply)} {e e' : DBEngine}
      {c : DatabaseCall} {reply : Except Exn Reply} (run : DatabaseRun calls replies e)
      (allowed : e.Allows c) (call : Returns (execute · e c) (reply, e')) :
      DatabaseRun (calls ++ [c]) (replies ++ [reply]) e'

variable {calls : List DatabaseCall} {replies : List (Except Exn Reply)}

/-- A run of the engine is one of the tables, with the same replies. -/
theorem DatabaseRun.represents (h : DatabaseRun calls replies e) :
    ∃ db, Database.Run calls replies db ∧ e.Represents db := by
  induction h with
  | start => exact ⟨∅, .start, represents_empty⟩
  | call _ allowed call ih =>
    obtain ⟨db, hrun, hrep⟩ := ih
    obtain ⟨reply, e', db', hret, hanswers, hrep'⟩ := hrep.step allowed
    cases hret.unique call
    exact ⟨db', hrun.call hanswers, hrep'⟩

/-- A run of allowed calls on the engine is a run on a database with the same replies, and then every
allowed call comes back with a reply of this database. -/
theorem database_of_run (h : DatabaseRun calls replies e) :
    ∃ db, Database.Run calls replies db ∧ ∀ c, e.Allows c →
      ∃ reply e' db', Returns (execute · e c) (reply, e') ∧ Database.Answers db c reply db' := by
  obtain ⟨db, hrun, hrep⟩ := h.represents
  refine ⟨db, hrun, fun c hallows => ?_⟩
  obtain ⟨reply, e', db', hret, hanswers, -⟩ := hrep.step hallows
  exact ⟨reply, e', db', hret, hanswers⟩

/-- After a run, `load` of all columns gives the rows that have been added to the table since it was
last dropped, each of them once and in the order of the calls. -/
theorem load_of_run (h : DatabaseRun calls replies e) (hlookup : e.tablesRaw.lookup tableName = some table) :
    e.load tableName table.attributeNames = (.ok ((Database.added tableName calls replies).map fun row =>
      ({ fields := row } : Record).norm table.attributeTypes), e) := by
  obtain ⟨db, hrun, hrep⟩ := h.represents
  obtain ⟨t, ht, hheld⟩ := hrep.exists_table hlookup
  have hrows : t.rows = Database.added tableName calls replies := by
    rw [← hrun.rowsOf_eq, Database.rowsOf_eq_of_lookup ht]
  rw [hheld.loadAll, ← hrows, hheld.stored.types]
  rfl

end DBEngine

end

end

section
attribute [local instance] noFloats firstChoice noFloatsCast

/-- A table of an `INT` and a `BOOL` column. -/
def sampleSchema : Schema where
  names := [ascii "id", ascii "x"]
  types := [.int, .bool]
  primaryKey := ascii "id"
  nodup := by decide
  length := rfl
  few := by decide
  fits := by decide
  int := by decide

/-- A new table with a row. -/
theorem exists_sampleRun : ∃ e table,
    DBEngine.DatabaseRun [.createTable (ascii "t") sampleSchema,
      .perform (ascii "t") (.add [ascii "7", ascii "si"])] [.ok (.flag true), .ok (.flag true)] e ∧
    e.tablesRaw.lookup (ascii "t") = some table ∧
    e.sequentialIndexes.keys = [⟨ascii "t", ascii "id"⟩] ∧
    table.attributeNames = [ascii "id", ascii "x"] ∧ table.primaryKey = ascii "id" := by
  have h1 : DBEngine.DatabaseRun [.createTable (ascii "t") sampleSchema] [.ok (.flag true)] oneTable :=
    .call .start (fun _ index _ => ⟨AList.notMem_empty _, AList.notMem_empty _, AList.notMem_empty _⟩)
      (.of_eq fun _ => rfl)
  obtain ⟨e, table, hlookup, hkeys, hnames, hprimary, hadd⟩ : ∃ e table,
      e.tablesRaw.lookup (ascii "t") = some table ∧
      e.sequentialIndexes.keys = [⟨ascii "t", ascii "id"⟩] ∧
      table.attributeNames = [ascii "id", ascii "x"] ∧ table.primaryKey = ascii "id" ∧
      Returns (oneTable.add · (ascii "t") [ascii "7", ascii "si"]) (.ok true, e) :=
    ⟨_, _, rfl, rfl, rfl, rfl, .of_add 5 fun _ => rfl⟩
  have hallows : oneTable.Allows (.perform (ascii "t") (.add [ascii "7", ascii "si"])) := by
    intro table hl
    cases hl
    refine ⟨.cons ⟨_, rfl⟩ (.cons ⟨_, rfl⟩ .nil), fun k si _ hsi hmisplaced => ?_⟩
    cases hsi
    cases hmisplaced.1
  have hcall : Returns (DBEngine.execute · oneTable
      (.perform (ascii "t") (.add [ascii "7", ascii "si"]))) (.ok (.flag true), e) := by
    filter_upwards [hadd] with fuel hfuel
    rw [DBEngine.execute, DBEngine.perform, hfuel]
    rfl
  exact ⟨e, table, h1.call hallows hcall, hlookup, hkeys, hnames, hprimary⟩

/-- The database with this table. -/
theorem database_of_run_sample : ∃ db,
    Database.Run [.createTable (ascii "t") sampleSchema,
      .perform (ascii "t") (.add [ascii "7", ascii "si"])] [.ok (.flag true), .ok (.flag true)] db := by
  obtain ⟨e, -, hrun, -⟩ := exists_sampleRun
  obtain ⟨db, hdb, -⟩ := DBEngine.database_of_run hrun
  exact ⟨db, hdb⟩

/-- The row is loaded. -/
theorem load_of_run_sample : ∃ (e : DBEngine) (table : HeapFile), e.tablesRaw.lookup (ascii "t") = some table ∧
    e.load (ascii "t") table.attributeNames =
      (.ok [({ fields := [ascii "7", ascii "si"] } : Record).norm table.attributeTypes], e) := by
  obtain ⟨e, table, hrun, hlookup, -⟩ := exists_sampleRun
  exact ⟨e, table, hlookup, DBEngine.load_of_run hrun hlookup⟩

end

end DbEngine

end Rdbms
