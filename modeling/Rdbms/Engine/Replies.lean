import Rdbms.Engine.Held
import Rdbms.Engine.Isolation
import Rdbms.Engine.Range

/-!
# Queries of a table

`search` and `range_search` ask the indexes on attributes of a name, and read the rows at the
positions that they are given. When all indexes of that name are of the table, the table's own index
answers, or none, and the reply is one that the table gives (`Table.HeldBy.search`,
`Table.HeldBy.rangeSearch`). `load` gives all rows of the table.
-/

namespace Rdbms

namespace DbEngine

section
variable [FloatType] {e e' : DBEngine} {tableName name : Bytes} {table : HeapFile} {t : Table}
  {q : RangeQuery} {type : FieldType} {selected : List Bytes} {expr : Record → Bool} {fuel : Nat}

/-! ## Loading -/

namespace Table.HeldBy

/-- The columns that are selected, of all rows. -/
theorem load (h : t.HeldBy e tableName table) (hselected : table.Selects selected) :
    e.load tableName selected =
      (.ok ((t.records t.rows).map (t.schema.project selected)), e) := by
  rw [DBEngine.load, DBEngine.tableAt_of_lookup h.lookup]
  simp only
  rw [h.stored.load]
  simp only
  rw [h.stored.filter hselected fun _ => StoredIn.length_records fun _ hrow => hrow, h.setTable]

/-- All columns. -/
theorem loadAll (h : t.HeldBy e tableName table) :
    e.load tableName table.attributeNames = (.ok (t.records t.rows), e) := by
  have hnames := h.stored.names
  have hwidth : ∀ record ∈ t.records t.rows, record.fields.length ≤ table.attributeNames.length := by
    intro record hrecord
    rw [hnames]
    exact (StoredIn.length_records (fun _ hrow => hrow) hrecord).le
  rw [DBEngine.load, DBEngine.tableAt_of_lookup h.lookup]
  simp only
  rw [h.stored.load]
  simp only
  rw [table.filter_all (hnames ▸ t.schema.nodup) (hnames ▸ t.schema.few) hwidth, h.setTable]

/-- With the first columns, the predicate is asked of the rows as they are selected. -/
theorem loadIf (h : t.HeldBy e tableName table) (hselected : table.Selects selected)
    (hfirst : table.SelectsFirst selected) (expr : Record → Bool) :
    e.loadIf tableName selected expr =
      (.ok (((t.records t.rows).map (t.schema.project selected)).filter expr), e) := by
  obtain ⟨hnames, hsorted⟩ := hselected
  have hnames' : ∀ name ∈ selected, name ∈ table.attributeNames.take 256 := by
    rwa [List.take_of_length_le (h.stored.names ▸ t.schema.few)]
  have hproject : ∀ record ∈ t.records t.rows,
      table.project selected record = t.schema.project selected record := by
    intro record hrecord
    have hwidth := StoredIn.length_records (fun _ hrow => hrow) hrecord
    have hzip := HeapFile.project_eq_zip (h.stored.names ▸ t.schema.nodup) hnames
      (hwidth.trans (congrArg List.length h.stored.names.symm))
    rw [hzip, h.stored.names]
    rfl
  have hwidth : ∀ record ∈ (t.records t.rows).map (t.schema.project selected),
      table.project selected record = record := by
    intro record hrecord
    obtain ⟨row, hrow, rfl⟩ := List.mem_map.1 hrecord
    rw [← hproject row hrow]
    refine HeapFile.project_project hfirst (.inr ?_)
    rw [StoredIn.length_records (fun _ hr => hr) hrow, h.stored.types, t.schema.length]
  rw [DBEngine.loadIf, h.load ⟨hnames, hsorted⟩]
  simp only [DBEngine.tableAt_of_lookup h.lookup]
  rw [HeapFile.filter_eq_project hnames' hsorted]
  refine congrArg (·, e) (congrArg Except.ok ?_)
  refine (List.map_congr_left fun record hrecord => ?_).trans (List.map_id _)
  exact hwidth record (List.mem_of_mem_filter hrecord)

end Table.HeldBy

/-! ## The bounds of a query -/

/-- A bound that is no number of the column's type makes `key_cast_and_execute` throw. -/
theorem keyCastAndExecute₂_error {β : Type} {ex : Exn} {first last : Bytes}
    (hcast : type.castBounds first last = .error ex)
    (func : ∀ {κ : Type} [KeyType κ], Alternative κ → κ → κ → β) :
    keyCastAndExecute₂ type first last func = .error ex := by
  cases type with
  | bool | varchar size => cases hcast
  | int =>
    rw [FieldType.castBounds] at hcast
    rw [keyCastAndExecute₂]
    cases hlo : stoi first with
    | error ex' =>
      rw [hlo] at hcast
      cases hcast
      rfl
    | ok lo =>
      cases hhi : stoi last with
      | error ex' =>
        rw [hlo, hhi] at hcast
        cases hcast
        rfl
      | ok hi =>
        rw [hlo, hhi] at hcast
        cases hcast
  | float =>
    rw [FieldType.castBounds] at hcast
    rw [keyCastAndExecute₂]
    cases hlo : FloatType.stof first with
    | error ex' =>
      rw [hlo] at hcast
      cases hcast
      rfl
    | ok lo =>
      cases hhi : FloatType.stof last with
      | error ex' =>
        rw [hlo, hhi] at hcast
        cases hcast
        rfl
      | ok hi =>
        rw [hlo, hhi] at hcast
        cases hcast

/-- Bounds that are numbers of a `FLOAT` column are cast, and are none of an `INT` column. -/
theorem keyCastAndExecute₂_float {β : Type} {first last : Bytes} {bounds : Option (Int × Int)}
    (hcast : FieldType.float.castBounds first last = .ok bounds) :
    bounds = none ∧ ∃ lo hi, ∀ func : ∀ {κ : Type} [KeyType κ], Alternative κ → κ → κ → β,
      keyCastAndExecute₂ .float first last func = .ok (some (func .float lo hi)) := by
  obtain ⟨lo, hlo, hcast'⟩ := bind_eq_ok.1 hcast
  obtain ⟨hi, hhi, hbounds⟩ := bind_eq_ok.1 hcast'
  refine ⟨(Except.ok.inj hbounds).symm, lo, hi, fun func => ?_⟩
  rw [keyCastAndExecute₂, hlo, hhi]
  rfl

/-! ## Asking the indexes -/

section
variable [Unspecified]

namespace DBEngine
variable {κ : Type} [KeyType κ] {alt : Alternative κ}

omit [KeyType κ] in
/-- The first index on an attribute of the name is the one of the table. -/
theorem OwnName.find? (hown : e.OwnName tableName name) :
    ((Unspecified.order e.sequentialIndexes.keys).find? (·.attributeName = name)).bind
        e.sequentialIndexes.lookup = e.sequentialIndexes.lookup ⟨tableName, name⟩ := by
  cases hfind : (Unspecified.order e.sequentialIndexes.keys).find? (·.attributeName = name) with
  | none =>
    rw [Option.bind_none, eq_comm, AList.lookup_eq_none]
    intro hmem
    have hmem' := (Unspecified.order_perm e.sequentialIndexes.keys).symm.subset hmem
    simpa using List.find?_eq_none.1 hfind _ hmem'
  | some index =>
    have hmem := (Unspecified.order_perm _).subset (List.mem_of_find?_eq_some hfind)
    have hname : index.attributeName = name := by simpa using List.find?_some hfind
    rw [Option.bind_some]
    congr
    rw [← hname, ← hown index hmem hname]

/-- No index on an attribute of the name, and so nothing. -/
theorem searchIndex_of_none (hown : e.OwnName tableName name)
    (hnone : e.sequentialIndexes.lookup ⟨tableName, name⟩ = none) (k : κ) (fuel : Nat) :
    e.searchIndex fuel name alt k = some (.ok []) := by
  rw [searchIndex, hown.find?, hnone]

/-- The table's own index on `INT` keys answers. -/
theorem searchIndex_of_int {si : SequentialIndex Int} (hown : e.OwnName tableName name)
    (hsi : e.sequentialIndexes.lookup ⟨tableName, name⟩ = some (.int si)) (k : Int) (fuel : Nat) :
    e.searchIndex fuel name .int k = (si.search fuel k).map .ok := by
  rw [searchIndex, hown.find?, hsi]
  simp only [IndexContainer.search, IndexContainer.call, Alternative.int, Option.map_map]
  rfl

omit [Unspecified] in
/-- No index on an attribute of the name adds a position. -/
theorem rangeSearchIndex_of_none
    (hnone : e.sequentialIndexes.lookup ⟨tableName, name⟩ = none) {indexes : List Index}
    (hown : ∀ index ∈ indexes, index.attributeName = name → index.table = tableName)
    (first last : κ) (positions : List Int) (fuel : Nat) :
    e.rangeSearchIndex fuel name alt first last indexes positions = some (.ok positions) := by
  induction indexes with
  | nil => rfl
  | cons index indexes ih =>
    have htail := ih fun index hindex => hown index (.tail _ hindex)
    rw [rangeSearchIndex]
    cases hidx : e.sequentialIndexes.lookup index with
    | none => exact htail
    | some idx =>
      have hname : index.attributeName ≠ name := by
        intro hname
        obtain rfl : index = ⟨tableName, name⟩ := by rw [← hname, ← hown index (.head _) hname]
        cases hnone.symm.trans hidx
      simp only [if_pos hname]
      exact htail

/-- The table's own index on `INT` keys answers for the name. -/
theorem rangeSearchIndex_of_int {si : SequentialIndex Int} {lo hi : Int} {positions : List Int}
    (hown : ∀ index ∈ Unspecified.order e.sequentialIndexes.keys,
      index.attributeName = name → index.table = tableName)
    (hsi : e.sequentialIndexes.lookup ⟨tableName, name⟩ = some (.int si))
    (hrange : Returns (si.rangeSearch · lo hi) positions) :
    Returns (fun fuel => e.rangeSearchIndex fuel name .int lo hi
      (Unspecified.order e.sequentialIndexes.keys) []) (.ok positions) := by
  have hidx : Returns ((IndexContainer.int si).rangeSearch · .int lo hi)
      (.ok positions, .int si) := by
    refine (hrange.map fun positions => (Except.ok positions, IndexContainer.int si)).congr
      fun fuel => ?_
    rw [IndexContainer.rangeSearch, IndexContainer.call]
    simp only [Alternative.int, Option.map_map]
    rfl
  have hmem : (⟨tableName, name⟩ : Index) ∈ Unspecified.order e.sequentialIndexes.keys := by
    rw [(Unspecified.order_perm _).mem_iff, ← AList.mem_keys, ← AList.lookup_isSome, hsi]
    rfl
  have hret := rangeSearchIndex_eq hsi hidx hown []
  rwa [if_pos hmem] at hret

/-- The end of `search` and `range_search`, when they have asked the indexes. -/
def answerAsked (e : DBEngine) (tableName : Bytes) (table : HeapFile) (expr : Record → Bool)
    (selected : List Bytes) :
    Except Exn (Option (Option (Except Exn (List Int)))) → Option (Outcome DBEngine (List Record))
  | .error ex => some (.error ex, e)
  | .ok none => some (e.answer tableName table [] expr selected)
  | .ok (some response) => response.map fun
    | .error ex => (.error ex, e)
    | .ok positions => e.answer tableName table positions expr selected

end DBEngine

/-- What a query gets when it asks the indexes: an exception, nothing to look up, or the places of
rows; and the reply that comes of it is one of the table. -/
inductive Table.Asks (t : Table) (table : HeapFile) (q : RangeQuery)
    (ask : Nat → Except Exn (Option (Option (Except Exn (List Int))))) : Prop
  | throws {ex : Exn} (hask : ∀ fuel, ask fuel = .error ex) (h : t.Replies q (.error ex))
  | idle (hask : ∀ fuel, ask fuel = .ok none) (h : t.Replies q (.ok (.rows [])))
  | found {response : Nat → Option (Except Exn (List Int))}
      {placed : List ((Int × List Bytes) × Nat)}
      (hask : ∀ fuel, ask fuel = .ok (some (response fuel)))
      (hret : Returns response (.ok (placed.map fun x => table.pos x.2)))
      (hplaced : t.Places placed)
      (h : t.Replies q (.ok (.rows (((t.records ((placed.map (·.1)).map (·.2))).filter q.expr).map
        (t.schema.project q.selected)))))

omit [Unspecified] in
/-- The indexes have nothing. -/
theorem Table.Asks.nothing {ask : Nat → Except Exn (Option (Option (Except Exn (List Int))))}
    {response : Nat → Option (Except Exn (List Int))}
    (hask : ∀ fuel, ask fuel = .ok (some (response fuel)))
    (hret : ∀ fuel, response fuel = some (.ok [])) (h : t.Replies q (.ok (.rows []))) :
    t.Asks table q ask := by
  have hret' : Returns response (.ok (([] : List ((Int × List Bytes) × Nat)).map
    fun x => table.pos x.2)) := .of_eq hret
  exact .found hask hret' t.places_nil h

omit [Unspecified] in
/-- The reply to a query that has asked the indexes. -/
theorem Table.Asks.returns {ask : Nat → Except Exn (Option (Option (Except Exn (List Int))))}
    (hasks : t.Asks table q ask) (h : t.HeldBy e tableName table)
    (hselected : table.Selects q.selected) {run : Nat → Option (Outcome DBEngine (List Record))}
    (hrun : ∀ fuel, run fuel = e.answerAsked tableName table q.expr q.selected (ask fuel)) :
    ∃ res, Returns run (res, e) ∧ t.Replies q (res.map .rows) := by
  cases hasks with
  | @throws ex hask hreply =>
    refine ⟨.error ex, .of_eq fun fuel => ?_, hreply⟩
    rw [hrun, hask]
    rfl
  | idle hask hreply =>
    have hanswer := h.answer hselected t.places_nil q.expr
    refine ⟨.ok [], .of_eq fun fuel => ?_, hreply⟩
    rw [hrun, hask]
    exact congrArg some hanswer
  | @found response placed hask hret hplaced hreply =>
    have hanswer := h.answer hselected hplaced q.expr
    refine ⟨.ok _, ?_, hreply⟩
    filter_upwards [hret] with fuel hfuel
    rw [hrun, hask, DBEngine.answerAsked, hfuel]
    exact congrArg some hanswer

/-! ## The queries -/

namespace Table.HeldBy

omit [Unspecified] in
/-- No index is on a column that is not an `INT`. -/
theorem lookup_of_type (h : t.HeldBy e tableName table) (htype : t.schema.type? name = some type)
    (hne : type ≠ .int) : e.sequentialIndexes.lookup ⟨tableName, name⟩ = none := by
  refine h.noIndex name ?_
  cases hrows : t.indexes.lookup name with
  | none => rfl
  | some rows =>
    cases htype.symm.trans (t.known_int name rows hrows)
    exact absurd rfl hne

omit [Unspecified] in
/-- What the index on an `INT` column answers for the numbers between two. -/
theorem found (h : t.HeldBy e tableName table) (htype : t.schema.type? q.name = some .int)
    {lo hi : Int} (hcast : FieldType.int.castBounds q.first q.last = .ok (some (lo, hi))) :
    ∃ placed : List ((Int × List Bytes) × Nat), t.Places placed ∧
      t.Replies q (.ok (.rows (((t.records ((placed.map (·.1)).map (·.2))).filter q.expr).map
        (t.schema.project q.selected)))) ∧
      (e.sequentialIndexes.lookup ⟨tableName, q.name⟩ = none ∧ placed = [] ∨
        ∃ si, e.sequentialIndexes.lookup ⟨tableName, q.name⟩ = some (.int si) ∧
          Returns (si.rangeSearch · lo hi) (placed.map fun x => table.pos x.2) ∧
          (lo = hi → Returns (si.search · lo) (placed.map fun x => table.pos x.2))) := by
  cases hrows : t.indexes.lookup q.name with
  | none =>
    have hknown : t.known q.name = [] := by rw [Table.known, hrows, Option.getD_none]
    refine ⟨[], t.places_nil, .found htype hcast ?_ .nil, .inl ⟨h.noIndex q.name hrows, rfl⟩⟩
    rw [hknown]
    exact .refl _
  | some rows =>
    obtain ⟨si, hsi, hm, -⟩ := h.knows q.name rows hrows
    obtain ⟨placed, hplaced, hperm, hrange, hsearch⟩ :=
      hm.found (t.known_prefix q.name rows hrows)
    let between (x : (Int × List Bytes) × Nat) : Bool := lo ≤ x.1.1 ∧ x.1.1 ≤ hi
    refine ⟨placed.filter between, hplaced.filter between, .found htype hcast ?_ ?_,
      .inr ⟨si, hsi, hrange lo hi, ?_⟩⟩
    · rw [t.known_of_lookup hrows]
      have hfilter := hperm.filter fun p => decide (lo ≤ p.1 ∧ p.1 ≤ hi)
      rwa [List.filter_map] at hfilter
    · rw [List.pairwise_map]
      exact (hplaced.filter between).sorted
    · rintro rfl
      exact hsearch lo

/-- `search` gets from the index what the table has under the key. -/
theorem asks_search (h : t.HeldBy e tableName table) {key : Attribute}
    (hown : e.OwnName tableName key.name) (expr : Record → Bool) (selected : List Bytes) :
    t.Asks table ⟨key.name, key.value, key.value, expr, selected⟩ (fun fuel => do
      let keyType ← table.getType key.name
      keyCastAndExecute keyType key.value fun alt keyValue =>
        e.searchIndex fuel key.name alt keyValue) := by
  by_cases hname : key.name ∈ t.schema.names
  · obtain ⟨type, htype⟩ := Schema.exists_type? hname
    have hget := h.stored.getType htype
    simp only [hget, bind, Except.bind]
    cases type with
    | bool | varchar size => exact .idle (fun fuel => rfl) (.notLookedUp htype rfl)
    | int =>
      cases hk : stoi key.value with
      | error ex =>
        refine .throws (fun fuel => keyCastAndExecute_int_error hk _) (.noNumber htype ?_)
        rw [FieldType.castBounds, hk]
        rfl
      | ok k =>
        have hcast : FieldType.int.castBounds key.value key.value = .ok (some (k, k)) := by
          rw [FieldType.castBounds, hk]
          rfl
        obtain ⟨placed, hplaced, hreply, hentry⟩ :=
          h.found (q := ⟨key.name, key.value, key.value, expr, selected⟩) htype hcast
        refine .found (fun fuel => keyCastAndExecute_int hk _) ?_ hplaced hreply
        rcases hentry with ⟨hnone, rfl⟩ | ⟨si, hsi, -, hsearch⟩
        · exact .of_eq fun fuel => DBEngine.searchIndex_of_none hown hnone k fuel
        · exact ((hsearch rfl).map Except.ok).congr
            (DBEngine.searchIndex_of_int hown hsi k)
    | float =>
      have hnone := h.lookup_of_type htype (by simp)
      cases hk : FloatType.stof key.value with
      | error ex =>
        have hcast : FieldType.float.castBounds key.value key.value = .error ex := by
          rw [FieldType.castBounds, hk]
          rfl
        refine .throws (fun fuel => ?_) (.noNumber htype hcast)
        rw [keyCastAndExecute, hk]
        rfl
      | ok v =>
        have hask : ∀ fuel, (keyCastAndExecute .float key.value fun alt keyValue =>
            e.searchIndex fuel key.name alt keyValue) =
              .ok (some (e.searchIndex fuel key.name .float v)) := fun fuel => by
          rw [keyCastAndExecute, hk]
          rfl
        refine .nothing hask (DBEngine.searchIndex_of_none hown hnone v) (.notLookedUp htype ?_)
        rw [FieldType.castBounds, hk]
        rfl
  · refine .throws (fun fuel => ?_) (.noColumn hname)
    rw [h.stored.getType_of_not_mem hname]
    rfl

/-- `range_search` gets from the indexes what the table has in the range. -/
theorem asks_rangeSearch (h : t.HeldBy e tableName table) (hown : e.OwnName tableName q.name) :
    t.Asks table q (fun fuel => do
      let keyType ← table.getType q.name
      keyCastAndExecute₂ keyType q.first q.last fun alt first last =>
        e.rangeSearchIndex fuel q.name alt first last
          (Unspecified.order e.sequentialIndexes.keys) []) := by
  have hown' : ∀ index ∈ Unspecified.order e.sequentialIndexes.keys,
      index.attributeName = q.name → index.table = tableName := fun index hindex =>
    hown index ((Unspecified.order_perm _).subset hindex)
  by_cases hname : q.name ∈ t.schema.names
  · obtain ⟨type, htype⟩ := Schema.exists_type? hname
    have hget := h.stored.getType htype
    simp only [hget, bind, Except.bind]
    cases hcast : type.castBounds q.first q.last with
    | error ex => exact .throws (fun fuel => keyCastAndExecute₂_error hcast _) (.noNumber htype hcast)
    | ok bounds =>
      cases type with
      | bool => exact .idle (fun fuel => rfl) (.notLookedUp htype rfl)
      | varchar size =>
        have hnone := h.lookup_of_type htype (by simp)
        exact .nothing (fun fuel => rfl)
          (DBEngine.rangeSearchIndex_of_none hnone hown' q.first q.last []) (.notLookedUp htype rfl)
      | int =>
        obtain ⟨lo, hlo, hcast'⟩ := bind_eq_ok.1 hcast
        obtain ⟨hi, hhi, hbounds⟩ := bind_eq_ok.1 hcast'
        obtain rfl := Except.ok.inj hbounds
        obtain ⟨placed, hplaced, hreply, hentry⟩ := h.found htype hcast
        refine .found (fun fuel => keyCastAndExecute₂_int hlo hhi _) ?_ hplaced hreply
        rcases hentry with ⟨hnone, rfl⟩ | ⟨si, hsi, hrange, -⟩
        · exact .of_eq fun fuel => DBEngine.rangeSearchIndex_of_none hnone hown' lo hi [] fuel
        · exact DBEngine.rangeSearchIndex_of_int hown' hsi hrange
      | float =>
        have hnone := h.lookup_of_type htype (by simp)
        obtain ⟨rfl, lo, hi, hask⟩ := keyCastAndExecute₂_float hcast
        exact .nothing (fun fuel => hask _)
          (DBEngine.rangeSearchIndex_of_none hnone hown' lo hi []) (.notLookedUp htype hcast)
  · refine .throws (fun fuel => ?_) (.noColumn hname)
    rw [h.stored.getType_of_not_mem hname]
    rfl

/-- `search` gives a reply of the table. -/
theorem search (h : t.HeldBy e tableName table) {key : Attribute}
    (hown : e.OwnName tableName key.name) (hselected : table.Selects selected)
    (expr : Record → Bool) :
    ∃ res, Returns (e.search · tableName key expr selected) (res, e) ∧
      t.Replies ⟨key.name, key.value, key.value, expr, selected⟩ (res.map .rows) := by
  refine (h.asks_search hown expr selected).returns h hselected fun fuel => ?_
  rw [DBEngine.search, DBEngine.tableAt_of_lookup h.lookup]
  rfl

/-- `range_search` gives a reply of the table, when it has found out its bounds. -/
theorem rangeSearch (h : t.HeldBy e tableName table) {beginKey endKey : Attribute}
    {bounds : Attribute × Attribute} (hbounds : DBEngine.rangeBounds beginKey endKey = .ok bounds)
    (hown : e.OwnName tableName bounds.1.name) (hselected : table.Selects selected)
    (expr : Record → Bool) :
    ∃ res, Returns (e.rangeSearch · tableName beginKey endKey expr selected) (res, e) ∧
      t.Replies ⟨bounds.1.name, bounds.1.value, bounds.2.value, expr, selected⟩ (res.map .rows) := by
  let q : RangeQuery := ⟨bounds.1.name, bounds.1.value, bounds.2.value, expr, selected⟩
  have hasks : t.Asks table q _ := h.asks_rangeSearch hown
  refine hasks.returns h hselected fun fuel => ?_
  have hat := DBEngine.tableAt_of_lookup h.lookup
  obtain ⟨cast, hcast⟩ : ∃ cast, (do
      let keyType ← table.getType bounds.1.name
      keyCastAndExecute₂ keyType bounds.1.value bounds.2.value fun alt first last =>
        e.rangeSearchIndex fuel bounds.1.name alt first last
          (Unspecified.order e.sequentialIndexes.keys) []) = cast := ⟨_, rfl⟩
  refine Eq.trans ?_ (congrArg (e.answerAsked tableName table expr selected) hcast.symm)
  simp only [bind, Except.bind] at hcast
  by_cases hlimits : beginKey = keyLimitsMin ∧ endKey = keyLimitsMax
  · simp only [DBEngine.rangeSearch, if_pos hlimits, h.load hselected, Except.map, hbounds, hat, bind,
      Except.bind, hcast]
    rcases cast with ex | _ | response <;> rfl
  · simp only [DBEngine.rangeSearch, if_neg hlimits, hbounds, hat, bind, Except.bind, hcast]
    rcases cast with ex | _ | response <;> rfl

end Table.HeldBy

end

end

end DbEngine

end Rdbms
