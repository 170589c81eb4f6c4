import Rdbms.Engine.Refine

/-!
# Queries and scans

A query by the primary key asks the index, and never reads the other rows. It gives what a scan gives,
which loads all rows and takes those with a number between the bounds that satisfy the predicate: the
same rows, in the order of their keys (`scan_of_run`).
-/

namespace Rdbms

namespace DbEngine

section
variable [FloatType] {e : DBEngine} {tableName : Bytes} {table : HeapFile} {t : Table} {q : RangeQuery}
  {rows : List (List Bytes)} {row : List Bytes} {i : Nat} {lo hi : Int}

/-! ## Rows with a number between two -/

/-- The record has a number between two in the column. -/
def Record.between (i : Nat) (lo hi : Int) (record : Record) : Bool :=
  match record.intAt i with
  | .ok k => lo ≤ k ∧ k ≤ hi
  | .error _ => false

omit [FloatType] in
/-- The numbered rows between two numbers. -/
theorem map_filter_numbered (i : Nat) (lo hi : Int) (rows : List (List Bytes)) :
    ((numbered i rows).filter fun p => lo ≤ p.1 ∧ p.1 ≤ hi).map (·.2) =
      rows.filter fun row => ({ fields := row } : Record).between i lo hi := by
  induction rows with
  | nil => rfl
  | cons row rows ih =>
    rw [numbered] at ih
    rw [numbered, List.filterMap_cons, List.filter_cons, Record.between]
    cases hk : ({ fields := row } : Record).intAt i with
    | error ex => exact ih
    | ok k =>
      simp only [Except.toOption, Option.map_some, List.filter_cons]
      split_ifs
      · exact congrArg (row :: ·) ih
      · exact ih

omit [FloatType] in
/-- A row that is numbered has its number. -/
theorem intAt_of_numbered {p : Int × List Bytes}
    (h : (({ fields := row } : Record).intAt i).toOption.map (·, row) = some p) :
    p.2 = row ∧ ({ fields := row } : Record).intAt i = .ok p.1 := by
  cases hk : ({ fields := row } : Record).intAt i with
  | error ex =>
    rw [hk] at h
    cases h
  | ok k =>
    rw [hk] at h
    cases h
    exact ⟨rfl, rfl⟩

namespace Table

/-- A number of a row in its normal form. -/
theorem intAt_norm (htype : t.schema.types[i]? = some .int) (hrow : row ∈ t.rows) :
    (({ fields := row } : Record).norm t.schema.types).intAt i =
      ({ fields := row } : Record).intAt i := by
  obtain ⟨buffer, henc⟩ := (t.accepts row hrow).encodes
  exact DbEngine.intAt_norm (Record.write_eq_ok.2 ⟨henc, Nat.lt_succ_of_le t.schema.fits⟩) htype

/-- The records of the rows with a number between two. -/
theorem filter_records (htype : t.schema.types[i]? = some .int) (hrows : ∀ row ∈ rows, row ∈ t.rows)
    (lo hi : Int) : (t.records rows).filter (Record.between i lo hi) =
      t.records (rows.filter fun row => ({ fields := row } : Record).between i lo hi) := by
  rw [records, records, List.filter_map]
  refine congrArg (List.map _) (List.filter_congr fun row hrow => ?_)
  show Record.between i lo hi _ = _
  rw [Record.between, intAt_norm htype (hrows row hrow)]
  rfl

/-- The numbers of the primary key are different. -/
theorem pairwise_numbered (t : Table) : (numbered (t.schema.column t.schema.primaryKey) t.rows).Pairwise
    fun p p' => p.1 ≠ p'.1 := by
  refine List.pairwise_filterMap.2 (t.unique.imp fun {row row'} hne p hp p' hp' heq => hne ?_)
  obtain ⟨-, hk⟩ := intAt_of_numbered hp
  obtain ⟨-, hk'⟩ := intAt_of_numbered hp'
  exact hk.trans ((congrArg Except.ok heq).trans hk'.symm)

/-- The records that a query by the primary key finds are those that a scan finds, in the order of
their keys. -/
theorem Replies.scan {reply : Except Exn DBEngine.Reply} (h : t.Replies q reply)
    (hname : q.name = t.schema.primaryKey) (hlo : stoi q.first = .ok lo) (hhi : stoi q.last = .ok hi) :
    ∃ found : List Record, reply = .ok (.rows (found.map (t.schema.project q.selected))) ∧
      found.Perm ((t.records t.rows).filter fun record =>
        q.expr record && record.between (t.schema.column q.name) lo hi) ∧
      found.Pairwise fun record record' => ∀ k k', record.intAt (t.schema.column q.name) = .ok k →
        record'.intAt (t.schema.column q.name) = .ok k' → k < k' := by
  have hint : t.schema.type? q.name = some .int := hname ▸ t.schema.int
  have hbounds : FieldType.int.castBounds q.first q.last = .ok (some (lo, hi)) := by
    rw [FieldType.castBounds, hlo, hhi]
    rfl
  have hknown : t.known q.name = t.rows := hname ▸ t.known_of_lookup t.primary
  cases h with
  | noColumn hnot => exact absurd (Schema.mem_of_type? hint) hnot
  | noNumber htype hcast =>
    cases hint.symm.trans htype
    cases hbounds.symm.trans hcast
  | notLookedUp htype hcast =>
    cases hint.symm.trans htype
    cases hbounds.symm.trans hcast
  | @found type lo' hi' numbers htype hcast hperm hsorted =>
    cases hint.symm.trans htype
    cases hbounds.symm.trans hcast
    rw [hknown] at hperm
    refine ⟨(t.records (numbers.map (·.2))).filter q.expr, rfl, ?_, .filter q.expr ?_⟩
    · have hrecords := (hperm.map (·.2)).map fun row =>
        ({ fields := row } : Record).norm t.schema.types
      rw [map_filter_numbered] at hrecords
      rw [← List.filter_filter, filter_records hint (fun row hrow => hrow)]
      exact hrecords.filter q.expr
    · have hfound : ∀ p ∈ numbers, p.2 ∈ t.rows ∧
          ({ fields := p.2 } : Record).intAt (t.schema.column q.name) = .ok p.1 := by
        intro p hp
        obtain ⟨row, hrow, hnumber⟩ := List.mem_filterMap.1 (List.mem_of_mem_filter (hperm.subset hp))
        obtain ⟨rfl, hk⟩ := intAt_of_numbered hnumber
        exact ⟨hrow, hk⟩
      have hdistinct : numbers.Pairwise fun p p' => p.1 ≠ p'.1 := by
        refine (hperm.pairwise_iff fun h => h.symm).2 (.filter _ ?_)
        rw [hname]
        exact t.pairwise_numbered
      rw [records, List.pairwise_map, List.pairwise_map]
      refine (hsorted.and hdistinct).imp_of_mem fun {p p'} hp hp' hlt k k' hk hk' => ?_
      obtain ⟨hrow, hp1⟩ := hfound p hp
      obtain ⟨hrow', hp1'⟩ := hfound p' hp'
      rw [intAt_norm hint hrow, hp1] at hk
      rw [intAt_norm hint hrow', hp1'] at hk'
      cases hk
      cases hk'
      exact lt_of_le_of_ne hlt.1 hlt.2

end Table

/-! ## Runs -/

section
variable [Unspecified] [IntCast FloatType.Value] {op : DBEngine.TableOp} {calls : List DatabaseCall}
  {replies : List (Except Exn DBEngine.Reply)}

omit [Unspecified] [IntCast FloatType.Value] in
/-- A query that is allowed selects columns. -/
theorem DBEngine.selects_of_query (hallows : e.AllowsOn tableName table op)
    (hq : op.query = some (.ok q)) : table.Selects q.selected := by
  cases op with
  | search key expr selected =>
    cases hq
    exact hallows.2
  | rangeSearch beginKey endKey expr selected =>
    cases hbounds : DBEngine.rangeBounds beginKey endKey with
    | error ex =>
      rw [DBEngine.TableOp.query, hbounds] at hq
      cases hq
    | ok bounds =>
      rw [DBEngine.TableOp.query, hbounds] at hq
      cases hq
      exact hallows.1
  | _ => cases hq

/-- After a run, a query by the primary key, for a key or for a range, gives the selected columns of
the rows that a scan finds: `load` of all columns, and of these rows those with a key between the
bounds that satisfy the predicate. The rows come in the order of their keys. -/
theorem DBEngine.scan_of_run (h : DBEngine.DatabaseRun calls replies e)
    (hlookup : e.tablesRaw.lookup tableName = some table) (hallows : e.AllowsOn tableName table op)
    (hq : op.query = some (.ok q)) (hname : q.name = table.primaryKey)
    (hlo : stoi q.first = .ok lo) (hhi : stoi q.last = .ok hi) :
    ∃ i rows found result, table.getAttributeIdx q.name = .ok i ∧
      e.load tableName table.attributeNames = (.ok rows, e) ∧
      found.Perm (rows.filter fun record => q.expr record && record.between i lo hi) ∧
      (found.Pairwise fun record record' => ∀ k k', record.intAt i = .ok k →
        record'.intAt i = .ok k' → k < k') ∧
      table.filter found q.selected = .ok result ∧
      Returns (DBEngine.perform · tableName e op) (.ok (.rows result), e) := by
  obtain ⟨db, hrun, hrep⟩ := h.represents
  obtain ⟨t, -, hheld⟩ := hrep.exists_table hlookup
  have hpk : q.name = t.schema.primaryKey := hname.trans hheld.stored.primaryKey
  obtain ⟨reply, hret, hreplies⟩ := hheld.queries hallows hq
  obtain ⟨found, rfl, hperm, hsorted⟩ := hreplies.scan hpk hlo hhi
  have hmem : q.name ∈ t.schema.names := hpk ▸ Schema.mem_of_type? t.schema.int
  refine ⟨_, _, found, _, hheld.stored.getAttributeIdx hmem, hheld.loadAll, hperm, hsorted,
    hheld.stored.filter (DBEngine.selects_of_query hallows hq) fun record hrecord => ?_, hret⟩
  exact Table.StoredIn.length_records (fun _ hrow => hrow)
    (List.mem_of_mem_filter (hperm.subset hrecord))

end

end

section
attribute [local instance] noFloats firstChoice noFloatsCast

/-- The row is found by its key. -/
theorem scan_of_run_sample : ∃ (e : DBEngine) (table : HeapFile) (rows found result : List Record),
    e.load (ascii "t") table.attributeNames = (.ok rows, e) ∧
    found.Perm (rows.filter fun record => true && record.between 0 7 7) ∧
    table.filter found [ascii "id", ascii "x"] = .ok result ∧
    Returns (DBEngine.perform · (ascii "t") e
      (.search ⟨ascii "id", ascii "7"⟩ (fun _ => true) [ascii "id", ascii "x"]))
      (.ok (.rows result), e) := by
  obtain ⟨e, table, hrun, hlookup, hkeys, hnames, hprimary⟩ := exists_sampleRun
  have hown : e.OwnName (ascii "t") (ascii "id") := by
    intro index hindex _
    rw [AList.mem_keys, hkeys, List.mem_singleton] at hindex
    rw [hindex]
  have hselects : table.Selects [ascii "id", ascii "x"] := by
    rw [HeapFile.Selects, hnames]
    decide
  have hallows : e.AllowsOn (ascii "t") table
      (.search ⟨ascii "id", ascii "7"⟩ (fun _ => true) [ascii "id", ascii "x"]) := ⟨hown, hselects⟩
  have hseven : stoi (ascii "7") = .ok 7 := rfl
  obtain ⟨i, rows, found, result, hidx, hload, hperm, -, hfilter, hret⟩ :=
    DBEngine.scan_of_run hrun hlookup hallows rfl hprimary.symm hseven hseven
  have hzero : table.getAttributeIdx (ascii "id") = .ok 0 := by
    rw [HeapFile.getAttributeIdx, hnames]
    rfl
  cases hzero.symm.trans hidx
  exact ⟨e, table, rows, found, result, hload, hperm, hfilter, hret⟩

end

end DbEngine

end Rdbms
