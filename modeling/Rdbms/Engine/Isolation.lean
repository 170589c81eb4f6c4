import Rdbms.Engine.Consistent
import Rdbms.Engine.Positions

/-!
# Queries of one table and rows of another

A query takes the index to ask by the name of the attribute only. When all sequential indexes on an
attribute of that name are of the table that is queried, `add` on other tables does not reach what
the query reads, so it answers as before, whatever the order of the map, and with rows of its table
when the index points to them. An index of another table on an attribute of the same name is asked
in some order, and answers for that table.
-/

namespace Rdbms

namespace DbEngine

section
variable [FloatType] {e e' : DBEngine} {tableName other attributeName : Bytes} {table : HeapFile}
  {fuel : Nat} {rows : List (List Bytes)} {type : FieldType} {i : Nat}

namespace DBEngine

/-! ## Calls of `add` on another table -/

/-- Sequences of calls of `add` on a table that come back. -/
inductive AddsTo (tableName : Bytes) : DBEngine → DBEngine → Prop
  | none (e : DBEngine) : AddsTo tableName e e
  | add {e e1 e2 : DBEngine} {fuel : Nat} {row : List Bytes} {res : Except Exn Bool}
      (add : e.add fuel tableName row = some (res, e1)) (rest : AddsTo tableName e1 e2) :
      AddsTo tableName e e2

/-- What a query of a table reads is in both states the same. -/
structure SameFor (tableName : Bytes) (e e' : DBEngine) : Prop where
  table : e'.tablesRaw.lookup tableName = e.tablesRaw.lookup tableName
  keys : e'.sequentialIndexes.keys = e.sequentialIndexes.keys
  indexes : ∀ index : Index, index.table = tableName →
    e'.sequentialIndexes.lookup index = e.sequentialIndexes.lookup index

/-- `add` to another table. -/
theorem SameFor.add {row : List Bytes} {res : Except Exn Bool} (hne : other ≠ tableName)
    (hadd : e.add fuel other row = some (res, e')) : SameFor tableName e e' := by
  have hkey : ∀ {type key pos res e1}, e.addKey fuel other type key pos = some (res, e1) →
      e1.sequentialIndexes.keys = e.sequentialIndexes.keys ∧ ∀ index : Index,
        index.table = tableName →
          e1.sequentialIndexes.lookup index = e.sequentialIndexes.lookup index := by
    intro type key pos res e1 h
    obtain rfl | ⟨idx, rfl⟩ := addKey_state h
    · exact ⟨rfl, fun _ _ => rfl⟩
    · refine ⟨AList.keys_replace .., fun index hindex => KeyedMap.lookup_replace_ne ?_⟩
      rintro rfl
      exact hne hindex
  have htable := lookup_of_add_other hne hadd
  cases add_cases hadd with
  | noKey => exact ⟨htable, rfl, fun _ _ => rfl⟩
  | atKey ex lookup getKey addKey => exact ⟨htable, (hkey addKey).1, (hkey addKey).2⟩
  | atRow lookup getKey addKey add => exact ⟨htable, (hkey addKey).1, (hkey addKey).2⟩
  | done lookup getKey addKey add => exact ⟨htable, (hkey addKey).1, (hkey addKey).2⟩

/-- The same when `add` succeeds. -/
theorem AddsTo.sameFor (h : AddsTo other e e') (hne : other ≠ tableName) :
    SameFor tableName e e' := by
  induction h with
  | none => exact ⟨rfl, rfl, fun _ _ => rfl⟩
  | add hadd _ ih =>
    have hfirst := SameFor.add hne hadd
    exact ⟨ih.table.trans hfirst.table, ih.keys.trans hfirst.keys,
      fun index hindex => (ih.indexes index hindex).trans (hfirst.indexes index hindex)⟩

/-- Every sequential index on an attribute of this name is one of the table. -/
def OwnName (e : DBEngine) (tableName attributeName : Bytes) : Prop :=
  ∀ index ∈ e.sequentialIndexes, index.attributeName = attributeName → index.table = tableName

/-! ## Queries -/

/-- The field of the row in the column casts to such a key. -/
def KeyOk {κ : Type} (i : Nat) (cast : Bytes → Except Exn κ) (ok : κ → Prop) (row : List Bytes) : Prop :=
  ∃ field k, row[i]? = some field ∧ cast field = .ok k ∧ ok k

/-- A query of a table by one of its attributes. -/
inductive Query
  | search (value : Bytes)
  | rangeSearch (first last : Bytes)

section
variable [Unspecified]

/-- What the query answers. -/
def Query.run (e : DBEngine) (tableName attributeName : Bytes) (expr : Record → Bool)
    (selected : List Bytes) (fuel : Nat) : Query → Option (Except Exn (List Record))
  | .search value =>
    (e.search fuel tableName ⟨attributeName, value⟩ expr selected).map (·.1)
  | .rangeSearch first last =>
    (e.rangeSearch fuel tableName ⟨attributeName, first⟩ ⟨attributeName, last⟩ expr selected).map
      (·.1)

/-- A range query is one of an `INT` attribute with integers, not limits, for its bounds. -/
def Query.Concrete (type : FieldType) : Query → Prop
  | .search _ => True
  | .rangeSearch first last =>
    type = .int ∧ (∃ lo, stoi first = .ok lo) ∧ ∃ hi, stoi last = .ok hi

/-- The row satisfies the condition of the query in its column. -/
def Query.Satisfied (type : FieldType) (i : Nat) : Query → List Bytes → Prop
  | .search value => match type with
    | .int => KeyOk i stoi (stoi value = .ok ·)
    | .float => KeyOk i FloatType.stof (FloatType.stof value = .ok ·)
    | .bool | .varchar _ => fun _ => False
  | .rangeSearch first last => KeyOk i stoi fun k => ∃ lo hi, stoi first = .ok lo ∧
    stoi last = .ok hi ∧ lo ≤ k ∧ k ≤ hi

/-- What the query asks the indexes. -/
def Query.ask (e : DBEngine) (attributeName : Bytes) (fuel : Nat) (type : FieldType) :
    Query → Except Exn (Option (Option (Except Exn (List Int))))
  | .search value => keyCastAndExecute type value fun alt k => e.searchIndex fuel attributeName alt k
  | .rangeSearch first last => keyCastAndExecute₂ type first last fun alt first last =>
    e.rangeSearchIndex fuel attributeName alt first last
      (Unspecified.order e.sequentialIndexes.keys) []

/-- The rows at these positions. -/
def rowsAt (table : HeapFile) (expr : Record → Bool) (selected : List Bytes)
    (positions : List Int) : Except Exn (List Record) :=
  (readRows expr positions table).2.filter (readRows expr positions table).1 selected

/-- What a query comes to, once it has asked the indexes. -/
def queried (table : HeapFile) (expr : Record → Bool) (selected : List Bytes) :
    Except Exn (Option (Option (Except Exn (List Int)))) → Option (Except Exn (List Record))
  | .error ex => some (.error ex)
  | .ok none => some (rowsAt table expr selected [])
  | .ok (some response) => response.map (·.bind (rowsAt table expr selected))

/-- A query asks the indexes and reads the rows at the positions that they answer. -/
theorem Query.run_eq {q : Query} (hq : q.Concrete type) {expr : Record → Bool} {selected : List Bytes} :
    q.run e tableName attributeName expr selected fuel =
      match e.tableAt tableName with
      | .error ex => some (.error ex)
      | .ok table =>
        queried table expr selected (table.getType attributeName >>= (q.ask e attributeName fuel ·)) := by
  have hresponse : ∀ table (response : Option (Except Exn (List Int)))
      (f : Except Exn (List Int) → Outcome DBEngine (List Record)),
      (∀ res, (f res).1 = res.bind (rowsAt table expr selected)) →
      (response.map f).map (·.1) = response.map (·.bind (rowsAt table expr selected)) := by
    intro table response f hf
    rw [Option.map_map]
    exact congrArg (response.map ·) (funext hf)
  cases q with
  | search value =>
    rw [run, DBEngine.search]
    cases e.tableAt tableName with
    | error ex => rfl
    | ok table =>
      obtain ⟨cast, hcast⟩ : ∃ cast, (table.getType attributeName >>=
        (ask e attributeName fuel · (.search value))) = cast := ⟨_, rfl⟩
      have hcast' : (do
          let keyType ← table.getType attributeName
          keyCastAndExecute keyType value fun alt keyValue =>
            e.searchIndex fuel attributeName alt keyValue) = cast := hcast
      simp only [hcast']
      refine Eq.trans ?_ (congrArg (queried table expr selected) hcast.symm)
      rcases cast with ex | _ | response
      · rfl
      · rfl
      · exact hresponse table response _ fun res => by cases res <;> rfl
  | rangeSearch first last =>
    obtain ⟨-, ⟨lo, hlo⟩, hi, hhi⟩ := hq
    have hfirst : (⟨attributeName, first⟩ : Attribute) ≠ keyLimitsMin := by
      rintro heq
      rw [(Attribute.mk.inj heq).2] at hlo
      cases hlo
    have hlast : (⟨attributeName, last⟩ : Attribute) ≠ keyLimitsMax := by
      rintro heq
      rw [(Attribute.mk.inj heq).2] at hhi
      cases hhi
    have hbounds : rangeBounds ⟨attributeName, first⟩ ⟨attributeName, last⟩ =
        .ok (⟨attributeName, first⟩, ⟨attributeName, last⟩) := by
      simp only [rangeBounds, ne_eq, not_true_eq_false, false_and, if_false, if_neg hfirst,
        if_neg hlast]
    rw [run, DBEngine.rangeSearch]
    simp only [if_neg fun h : _ ∧ _ => hfirst h.1, hbounds]
    cases e.tableAt tableName with
    | error ex => rfl
    | ok table =>
      obtain ⟨cast, hcast⟩ : ∃ cast, (table.getType attributeName >>=
        (ask e attributeName fuel · (.rangeSearch first last))) = cast := ⟨_, rfl⟩
      have hcast' : (do
          let keyType ← table.getType attributeName
          keyCastAndExecute₂ keyType first last fun alt first last =>
            e.rangeSearchIndex fuel attributeName alt first last
              (Unspecified.order e.sequentialIndexes.keys) []) = cast := hcast
      simp only [bind, Except.bind] at hcast' ⊢
      simp only [hcast']
      refine Eq.trans ?_ (congrArg (queried table expr selected) hcast.symm)
      rcases cast with ex | _ | response
      · rfl
      · rfl
      · exact hresponse table response _ fun res => by cases res <;> rfl

/-- A lookup asks the same index in both states. -/
theorem SameFor.searchIndex (h : SameFor tableName e e') (hown : e.OwnName tableName attributeName)
    {κ : Type} [KeyType κ] (alt : Alternative κ) (k : κ) :
    e'.searchIndex fuel attributeName alt k = e.searchIndex fuel attributeName alt k := by
  unfold DBEngine.searchIndex
  rw [h.keys]
  cases hfind : (Unspecified.order e.sequentialIndexes.keys).find?
    (·.attributeName = attributeName) with
  | none => rfl
  | some index =>
    have hmem := (Unspecified.order_perm _).subset (List.mem_of_find?_eq_some hfind)
    have hname : index.attributeName = attributeName := by simpa using List.find?_some hfind
    simp only [Option.bind_some, h.indexes index (hown index hmem hname)]

omit [Unspecified] in
/-- A range query asks the same indexes in both states. -/
theorem SameFor.rangeSearchIndex (h : SameFor tableName e e') {κ : Type} [KeyType κ]
    (alt : Alternative κ) (first last : κ) {indexes : List Index}
    (hown : ∀ index ∈ indexes, index.attributeName = attributeName → index.table = tableName)
    (positions : List Int) :
    e'.rangeSearchIndex fuel attributeName alt first last indexes positions =
      e.rangeSearchIndex fuel attributeName alt first last indexes positions := by
  induction indexes generalizing positions with
  | nil => rfl
  | cons index indexes ih =>
    have htail := fun positions => ih (fun j hj => hown j (.tail _ hj)) positions
    rw [DBEngine.rangeSearchIndex, DBEngine.rangeSearchIndex]
    by_cases hname : index.attributeName = attributeName
    · rw [h.indexes index (hown index (.head _) hname)]
      simp only [htail]
    · simp only [if_pos hname, htail]
      cases e'.sequentialIndexes.lookup index <;> cases e.sequentialIndexes.lookup index <;> rfl

/-- A query of the table answers in both states the same. -/
theorem SameFor.run (h : SameFor tableName e e') (hown : e.OwnName tableName attributeName)
    {q : Query} (hq : q.Concrete type) (expr : Record → Bool) (selected : List Bytes) (fuel : Nat) :
    q.run e' tableName attributeName expr selected fuel =
      q.run e tableName attributeName expr selected fuel := by
  have hask : ∀ type, q.ask e' attributeName fuel type = q.ask e attributeName fuel type := by
    intro type
    cases q with
    | search value => simp only [Query.ask, h.searchIndex hown]
    | rangeSearch first last =>
      have hindexes : ∀ index ∈ Unspecified.order e.sequentialIndexes.keys,
          index.attributeName = attributeName → index.table = tableName := fun index hindex =>
        hown index ((Unspecified.order_perm _).subset hindex)
      simp only [Query.ask, h.keys, h.rangeSearchIndex _ _ _ hindexes]
  have htable : e'.tableAt tableName = e.tableAt tableName := by
    rw [tableAt, tableAt, h.table]
  rw [Query.run_eq hq, Query.run_eq hq, htable]
  simp only [hask]

end

/-! ## The rows that a query finds -/

section
variable {κ : Type} {cast : Bytes → Except Exn κ} {ok : List Bytes → Prop}

/-- Positions of rows of the table with `ok`. -/
def PositionsOf (table : HeapFile) (rows : List (List Bytes)) (ok : List Bytes → Prop)
    (positions : List Int) : Prop :=
  ∀ pos ∈ positions, ∃ n, ∃ hn : n < rows.length, pos = table.pos n ∧ ok rows[n]

omit [FloatType] in
/-- No positions are those of no rows. -/
theorem PositionsOf.nil : PositionsOf table rows ok [] := fun pos hpos => by cases hpos

/-- Reading the rows at such positions. -/
theorem PositionsOf.readRows (hclosed : table.leftOpen = none)
    (hstores : table.Stores (rows.map fun row => { fields := row })) (expr : Record → Bool)
    {positions : List Int} (h : PositionsOf table rows ok positions) :
    ∃ found : List (List Bytes), (∀ row ∈ found, row ∈ rows ∧ ok row) ∧
      readRows expr positions table = ((found.map fun row =>
        ({ fields := row } : Record).norm table.attributeTypes).filter expr, table) := by
  induction positions with
  | nil => exact ⟨[], nofun, rfl⟩
  | cons pos positions ih =>
    obtain ⟨n, hn, rfl, hok⟩ := h pos (.head _)
    obtain ⟨found, hfound, hread⟩ := ih fun p hp => h p (.tail _ hp)
    have hn' : n < (rows.map fun row => ({ fields := row } : Record)).length := by
      rwa [List.length_map]
    have hrow := hstores.read hclosed hn'
    rw [List.getElem_map] at hrow
    refine ⟨rows[n] :: found, ?_, ?_⟩
    · rintro row (_ | ⟨_, hrow⟩)
      · exact ⟨List.getElem_mem hn, hok⟩
      · exact hfound row hrow
    · simp only [DBEngine.readRows, hrow, hread, List.map_cons, List.filter_cons]

/-- The index holds, under its keys, positions of rows with the key in the column. -/
def PointsTo [KeyType κ] (table : HeapFile) (rows : List (List Bytes)) (i : Nat)
    (cast : Bytes → Except Exn κ) (si : SequentialIndex κ) : Prop :=
  ∃ log, si.Holds log ∧ ∀ p ∈ log, ∃ n, ∃ hn : n < rows.length,
    p.2 = table.pos n ∧ KeyOk i cast (· = p.1) rows[n]

variable [KeyType κ] {alt : Alternative κ} {idx : IndexContainer SequentialIndex}

/-- A query of an index of this key type that points to rows, when an index answers it with positions
under keys with `keyOk`. -/
theorem call_positions {f : Nat → SequentialIndex κ → Option (List Int)} {keyOk : κ → Prop}
    (h : ∀ si, alt.get? idx = some si → PointsTo table rows i cast si)
    (hf : ∀ (si : SequentialIndex κ) (log : List (κ × Int)), si.Holds log →
      ∃ found, Returns (f · si) found ∧ ∀ pos ∈ found, ∃ p ∈ log, p.2 = pos ∧ keyOk p.1) :
    ∃ res, Returns (fun fuel =>
        (idx.call alt fun si => (f fuel si).map (Except.ok (ε := Exn) ·, si)).map (·.1)) res ∧
      ∀ positions, res = .ok positions → PositionsOf table rows (KeyOk i cast keyOk) positions := by
  simp only [IndexContainer.call]
  cases hget : alt.get? idx with
  | none => exact ⟨.error .badVariantAccess, .of_eq fun _ => rfl, fun _ heq => by cases heq⟩
  | some si =>
    obtain ⟨log, hholds, hrows⟩ := h si hget
    obtain ⟨found, hret, hin⟩ := hf si log hholds
    refine ⟨.ok found, (hret.map (Except.ok (ε := Exn))).congr fun fuel => ?_,
      fun positions heq pos hpos => ?_⟩
    · simp only [Option.map_map]
      rfl
    · cases heq
      obtain ⟨p, hlog, rfl, hkey⟩ := hin pos hpos
      obtain ⟨n, hn, hposn, field, k, hfield, hcast, rfl⟩ := hrows p hlog
      exact ⟨n, hn, hposn, field, _, hfield, hcast, hkey⟩

/-- A lookup in an index of this key type that points to rows. -/
theorem search_positions (h : ∀ si, alt.get? idx = some si → PointsTo table rows i cast si) (k : κ) :
    ∃ res, Returns (fun fuel => (idx.search fuel alt k).map (·.1)) res ∧
      ∀ positions, res = .ok positions → PositionsOf table rows (KeyOk i cast (· = k)) positions := by
  refine call_positions h fun si log hholds => ?_
  obtain ⟨found, hret, hperm⟩ := hholds.search k
  refine ⟨found, hret, fun pos hpos => ?_⟩
  obtain ⟨p, hp, rfl⟩ := List.mem_map.1 (hperm.subset hpos)
  obtain ⟨hlog, hkey⟩ := List.mem_filter.1 hp
  exact ⟨p, hlog, rfl, by simpa using hkey⟩

/-- A range query in an index of this key type that points to rows. -/
theorem rangeSearch_positions (h : ∀ si, alt.get? idx = some si → PointsTo table rows i cast si)
    (first last : κ) :
    ∃ res, Returns (fun fuel => (idx.rangeSearch fuel alt first last).map (·.1)) res ∧
      ∀ positions, res = .ok positions →
        PositionsOf table rows (KeyOk i cast fun k => first ≤ k ∧ k ≤ last) positions := by
  refine call_positions h fun si log hholds => ?_
  obtain ⟨found, hret, hin⟩ := hholds.rangeSearch first last
  exact ⟨found, hret, hin⟩

/-- The positions that a lookup of the table asks for. -/
theorem searchIndex_positions [Unspecified] (hown : e.OwnName tableName attributeName)
    (hright : ∀ idx, e.sequentialIndexes.lookup ⟨tableName, attributeName⟩ = some idx →
      ∀ si, alt.get? idx = some si → PointsTo table rows i cast si) (k : κ) :
    ∃ res, Returns (e.searchIndex · attributeName alt k) res ∧
      ∀ positions, res = .ok positions → PositionsOf table rows (KeyOk i cast (· = k)) positions := by
  simp only [DBEngine.searchIndex]
  cases hfind : (Unspecified.order e.sequentialIndexes.keys).find?
    (·.attributeName = attributeName) with
  | none => exact ⟨.ok [], .of_eq fun _ => rfl, fun _ heq => by cases heq; exact .nil⟩
  | some index =>
    have hmem := (Unspecified.order_perm _).subset (List.mem_of_find?_eq_some hfind)
    have hname : index.attributeName = attributeName := by simpa using List.find?_some hfind
    obtain rfl : index = ⟨tableName, attributeName⟩ := by
      rw [← hname, ← hown index hmem hname]
    cases hidx : e.sequentialIndexes.lookup ⟨tableName, attributeName⟩ with
    | none => exact ⟨.ok [], .of_eq fun _ => by simp [hidx], fun _ heq => by cases heq; exact .nil⟩
    | some idx =>
      obtain ⟨res, hret, hpositions⟩ := search_positions (hright idx hidx) k
      exact ⟨res, hret.congr fun fuel => by simp [hidx], hpositions⟩

/-- The positions that a range query of the table asks for. -/
theorem rangeSearchIndex_positions (first last : κ)
    (hright : ∀ idx, e.sequentialIndexes.lookup ⟨tableName, attributeName⟩ = some idx →
      ∀ si, alt.get? idx = some si → PointsTo table rows i cast si) {indexes : List Index}
    (hown : ∀ index ∈ indexes, index.attributeName = attributeName → index.table = tableName)
    {positions : List Int}
    (hpositions : PositionsOf table rows (KeyOk i cast fun k => first ≤ k ∧ k ≤ last) positions) :
    ∃ res, Returns (e.rangeSearchIndex · attributeName alt first last indexes positions) res ∧
      ∀ positions, res = .ok positions →
        PositionsOf table rows (KeyOk i cast fun k => first ≤ k ∧ k ≤ last) positions := by
  induction indexes generalizing positions with
  | nil => exact ⟨.ok positions, .of_eq fun _ => rfl, fun _ heq => by cases heq; exact hpositions⟩
  | cons index indexes ih =>
    have htail := fun j hj => hown j (.tail _ hj)
    simp only [DBEngine.rangeSearchIndex]
    cases hidx : e.sequentialIndexes.lookup index with
    | none => exact ih htail hpositions
    | some idx =>
      by_cases hname : index.attributeName = attributeName
      · obtain rfl : index = ⟨tableName, attributeName⟩ := by
          rw [← hname, ← hown index (.head _) hname]
        obtain ⟨res, hret, hfound⟩ := rangeSearch_positions (hright idx hidx) first last
        simp only [ne_eq, not_true_eq_false, if_false]
        cases res with
        | error ex =>
          refine ⟨.error ex, ?_, nofun⟩
          filter_upwards [hret] with fuel hfuel
          obtain ⟨⟨r, idx'⟩, hidx', rfl⟩ := Option.map_eq_some_iff.1 hfuel
          rw [hidx']
          rfl
        | ok positions' =>
          obtain ⟨res, hrest, hall⟩ := ih htail (hfound positions' rfl)
          refine ⟨res, ?_, hall⟩
          filter_upwards [hret, hrest] with fuel hfuel hfuel'
          obtain ⟨⟨r, idx'⟩, hidx', rfl⟩ := Option.map_eq_some_iff.1 hfuel
          rw [hidx']
          exact hfuel'
      · simp only [ne_eq, hname, not_false_eq_true, if_true]
        exact ih htail hpositions

end

/-- The index holds, under its keys, positions of rows with the key in the column. -/
def Right (table : HeapFile) (rows : List (List Bytes)) (i : Nat) :
    IndexContainer SequentialIndex → Prop
  | .int si => PointsTo table rows i stoi si
  | .float si => PointsTo table rows i FloatType.stof si
  | .string _ => True

/-- An index on `INT` keys points to rows. -/
theorem Right.int {idx : IndexContainer SequentialIndex} (h : Right table rows i idx)
    (si : SequentialIndex Int) (hsi : Alternative.int.get? idx = some si) :
    PointsTo table rows i stoi si := by
  cases idx with
  | int si' =>
    cases hsi
    exact h
  | float si' | string si' => cases hsi

/-- An index on `FLOAT` keys points to rows. -/
theorem Right.float {idx : IndexContainer SequentialIndex} (h : Right table rows i idx)
    (si : SequentialIndex FloatType.Value) (hsi : Alternative.float.get? idx = some si) :
    PointsTo table rows i FloatType.stof si := by
  cases idx with
  | float si' =>
    cases hsi
    exact h
  | int si' | string si' => cases hsi

variable [Unspecified]

/-- What a query asks for: nothing, or positions of rows with its condition. -/
theorem Query.ask_cases (hown : e.OwnName tableName attributeName)
    (hright : ∀ idx, e.sequentialIndexes.lookup ⟨tableName, attributeName⟩ = some idx →
      Right table rows i idx) {q : Query} (hq : q.Concrete type) :
    (∃ ex, ∀ fuel, q.ask e attributeName fuel type = .error ex) ∨
      (∀ fuel, q.ask e attributeName fuel type = .ok none) ∨
      ∃ response res, (∀ fuel, q.ask e attributeName fuel type = .ok (some (response fuel))) ∧
        Returns response res ∧ ∀ positions, res = .ok positions →
          PositionsOf table rows (q.Satisfied type i) positions := by
  cases q with
  | search value =>
    cases type with
    | bool | varchar size => exact .inr (.inl fun _ => rfl)
    | int =>
      cases hk : stoi value with
      | error ex => exact .inl ⟨ex, fun fuel => by rw [ask, keyCastAndExecute, hk]; rfl⟩
      | ok k =>
        obtain ⟨res, hret, hpositions⟩ :=
          searchIndex_positions hown (fun idx hidx => (hright idx hidx).int) k
        refine .inr (.inr ⟨_, res, fun fuel => by rw [ask, keyCastAndExecute, hk]; rfl, hret, ?_⟩)
        intro positions heq pos hpos
        obtain ⟨n, hn, hposn, field, _, hfield, hcast, rfl⟩ := hpositions positions heq pos hpos
        exact ⟨n, hn, hposn, field, _, hfield, hcast, hk⟩
    | float =>
      cases hk : FloatType.stof value with
      | error ex => exact .inl ⟨ex, fun fuel => by rw [ask, keyCastAndExecute, hk]; rfl⟩
      | ok k =>
        obtain ⟨res, hret, hpositions⟩ :=
          searchIndex_positions hown (fun idx hidx => (hright idx hidx).float) k
        refine .inr (.inr ⟨_, res, fun fuel => by rw [ask, keyCastAndExecute, hk]; rfl, hret, ?_⟩)
        intro positions heq pos hpos
        obtain ⟨n, hn, hposn, field, _, hfield, hcast, rfl⟩ := hpositions positions heq pos hpos
        exact ⟨n, hn, hposn, field, _, hfield, hcast, hk⟩
  | rangeSearch first last =>
    obtain ⟨rfl, ⟨lo, hlo⟩, hi, hhi⟩ := hq
    have hindexes : ∀ index ∈ Unspecified.order e.sequentialIndexes.keys,
        index.attributeName = attributeName → index.table = tableName := fun index hindex =>
      hown index ((Unspecified.order_perm _).subset hindex)
    obtain ⟨res, hret, hpositions⟩ := rangeSearchIndex_positions lo hi
      (fun idx hidx => (hright idx hidx).int) hindexes .nil
    refine .inr (.inr ⟨_, res, fun fuel => ?_, hret, ?_⟩)
    · rw [ask, keyCastAndExecute₂, hlo, hhi]
      rfl
    · intro positions heq pos hpos
      obtain ⟨n, hn, hposn, field, k, hfield, hcast, hrange⟩ := hpositions positions heq pos hpos
      exact ⟨n, hn, hposn, field, k, hfield, hcast, lo, hi, hlo, hhi, hrange⟩

/-- A query of a table by a column of this type. -/
theorem Query.run_of_lookup (hlookup : e.tablesRaw.lookup tableName = some table)
    (hcolumn : table.getAttributeIdx attributeName = .ok i)
    (htype : table.attributeTypes[i]? = some type) {q : Query} (hq : q.Concrete type)
    (expr : Record → Bool) (selected : List Bytes) (fuel : Nat) :
    q.run e tableName attributeName expr selected fuel =
      queried table expr selected (q.ask e attributeName fuel type) := by
  have hget : table.getType attributeName = .ok type := by
    rw [HeapFile.getType, hcolumn]
    exact HeapFile.vectorAt_eq_ok.2 htype
  rw [run_eq hq, tableAt_of_lookup hlookup]
  simp only [hget]
  rfl

/-- The query comes back, and when it gives records they are rows of the table with its condition, in
their normal form, of these the ones with `expr`, with the selected attributes. The same query after
calls of `add` on the other table gives the same. -/
def Isolated (e : DBEngine) (tableName attributeName other : Bytes) (table : HeapFile)
    (rows : List (List Bytes)) (type : FieldType) (i : Nat) : Prop :=
  ∀ q : Query, q.Concrete type → ∀ expr selected,
    ∃ res, Returns (q.run e tableName attributeName expr selected ·) res ∧
      (∀ records, res = .ok records → ∃ found : List (List Bytes),
        (∀ row ∈ found, row ∈ rows ∧ q.Satisfied type i row) ∧
        table.filter ((found.map fun row =>
          ({ fields := row } : Record).norm table.attributeTypes).filter expr) selected =
            .ok records) ∧
      ∀ e', AddsTo other e e' → Returns (q.run e' tableName attributeName expr selected ·) res

/-- A table whose index points to its rows, and no index of another table on an attribute of the
same name. -/
theorem isolated_of_ownName (hlookup : e.tablesRaw.lookup tableName = some table)
    (hcolumn : table.getAttributeIdx attributeName = .ok i)
    (htype : table.attributeTypes[i]? = some type) (hclosed : table.leftOpen = none)
    (hstores : table.Stores (rows.map fun row => { fields := row }))
    (hright : ∀ idx, e.sequentialIndexes.lookup ⟨tableName, attributeName⟩ = some idx →
      Right table rows i idx) (hown : e.OwnName tableName attributeName)
    (hne : other ≠ tableName) : e.Isolated tableName attributeName other table rows type i := by
  intro q hq expr selected
  have hrows : ∀ positions, PositionsOf table rows (q.Satisfied type i) positions →
      ∃ found : List (List Bytes), (∀ row ∈ found, row ∈ rows ∧ q.Satisfied type i row) ∧
        rowsAt table expr selected positions = table.filter ((found.map fun row =>
          ({ fields := row } : Record).norm table.attributeTypes).filter expr) selected := by
    intro positions hpositions
    obtain ⟨found, hfound, hread⟩ := hpositions.readRows hclosed hstores expr
    exact ⟨found, hfound, by rw [rowsAt, hread]⟩
  have hrun := Query.run_of_lookup hlookup hcolumn htype hq expr selected
  obtain ⟨res, hret, hfound⟩ : ∃ res,
      Returns (q.run e tableName attributeName expr selected ·) res ∧
      ∀ records, res = .ok records → ∃ found : List (List Bytes),
        (∀ row ∈ found, row ∈ rows ∧ q.Satisfied type i row) ∧
        table.filter ((found.map fun row =>
          ({ fields := row } : Record).norm table.attributeTypes).filter expr) selected =
            .ok records := by
    rcases Query.ask_cases hown hright hq with ⟨ex, hask⟩ | hask | ⟨response, res, hask, hret, hpos⟩
    · exact ⟨.error ex, .of_eq fun fuel => by rw [hrun, hask]; rfl, nofun⟩
    · obtain ⟨found, hfound, heq⟩ := hrows [] nofun
      refine ⟨rowsAt table expr selected [], .of_eq fun fuel => by rw [hrun, hask]; rfl, ?_⟩
      exact fun records hok => ⟨found, hfound, heq.symm.trans hok⟩
    · refine ⟨res.bind (rowsAt table expr selected),
        (hret.map (·.bind (rowsAt table expr selected))).congr fun fuel => ?_, fun records hok => ?_⟩
      · rw [hrun, hask]
        rfl
      cases res with
      | error ex => cases hok
      | ok positions =>
        obtain ⟨found, hfound, heq⟩ := hrows positions (hpos positions rfl)
        exact ⟨found, hfound, heq.symm.trans hok⟩
  exact ⟨res, hret, hfound, fun e' hadds =>
    hret.congr ((hadds.sameFor hne).run hown hq expr selected)⟩

omit [Unspecified] in
/-- The table of the index takes a row whose key goes to this index, which holds no such key. -/
def TakesRow (e : DBEngine) (index : Index) : Prop :=
  ∃ row e' table attr k si log, Returns (e.add · index.table row) (.ok true, e') ∧
    e.tablesRaw.lookup index.table = some table ∧
    table.getKey { fields := row } = .ok (.int, attr) ∧ attr.name = index.attributeName ∧
    stoi attr.value = .ok k ∧ e.sequentialIndexes.lookup index = some (.int si) ∧
    si.Holds log ∧ (∀ p ∈ log, p.1 ≠ k) ∧ ¬ si.HeaderMisplaced k

omit [FloatType] [Unspecified] in
/-- The map of indexes goes through this one first. -/
@[reducible] def firstIn (index : Index) : Unspecified where
  order keys := if index ∈ keys then index :: keys.erase index else keys
  order_perm keys := by
    split_ifs with hmem
    · exact (List.perm_cons_erase hmem).symm
    · rfl
  sort := firstChoice.sort
  sort_perm := firstChoice.sort_perm
  sort_sorted := firstChoice.sort_sorted
  memory := firstChoice.memory

omit [Unspecified] in
/-- A lookup that asks the index of another table. -/
theorem search_first (hlookup : e.tablesRaw.lookup tableName = some table)
    (hcolumn : table.getAttributeIdx attributeName = .ok i)
    (htype : table.attributeTypes[i]? = some .int) {value : Bytes} {k : Int}
    (hk : stoi value = .ok k) {si : SequentialIndex Int}
    (hsi : e.sequentialIndexes.lookup ⟨other, attributeName⟩ = some (.int si))
    {positions : List Int} (hret : Returns (si.search · k) positions) (expr : Record → Bool)
    (selected : List Bytes) :
    Returns (@Query.run _ (firstIn ⟨other, attributeName⟩) e tableName attributeName expr selected ·
      (.search value)) (rowsAt table expr selected positions) := by
  let _ := firstIn ⟨other, attributeName⟩
  have hmem : (⟨other, attributeName⟩ : Index) ∈ e.sequentialIndexes.keys :=
    AList.lookup_isSome.1 (hsi ▸ rfl)
  have hfirst : (Unspecified.order e.sequentialIndexes.keys).find?
      (·.attributeName = attributeName) = some ⟨other, attributeName⟩ := by
    show (if _ then _ else _ : List Index).find? _ = _
    rw [if_pos hmem, List.find?_cons_of_pos (by simp)]
  have hrun := Query.run_of_lookup (q := .search value) hlookup hcolumn htype trivial expr selected
  refine (hret.map (rowsAt table expr selected)).congr fun fuel => ?_
  rw [hrun, Query.ask, keyCastAndExecute_int hk, DBEngine.searchIndex, hfirst, Option.bind_some, hsi]
  simp only [queried, IndexContainer.search, IndexContainer.call, Alternative.int, Option.map_map]
  rfl

omit [Unspecified] in
/-- An index of another table on an attribute of the same name: in some order, the query of a key
that the other table takes finds nothing before and a record after. -/
theorem not_isolated (hlookup : e.tablesRaw.lookup tableName = some table)
    (hcolumn : table.getAttributeIdx attributeName = .ok i)
    (htype : table.attributeTypes[i]? = some .int) (hne : other ≠ tableName)
    (htakes : e.TakesRow ⟨other, attributeName⟩) :
    ¬ @Isolated _ (firstIn ⟨other, attributeName⟩) e tableName attributeName other table rows .int
      i := by
  obtain ⟨row, e', table1, attr, k, si, log, hadd, hlookup1, hkey, hname, hk, hsi, hholds, hnew,
    hplace⟩ := htakes
  simp only at hadd hlookup1 hname
  subst hname
  obtain ⟨fuel, hfuel⟩ := hadd.exists
  obtain ⟨pos, table1', hrow⟩ : ∃ pos table1', table1.add { fields := row } = (.ok pos, table1') := by
    cases add_cases hfuel with
    | done lookup getKey addKey add =>
      cases hlookup1.symm.trans lookup
      exact ⟨_, _, add⟩
  obtain ⟨records, si', hret, rfl⟩ := add_accepted hadd hlookup1 hkey hk hsi hholds hplace hrow
  have hholds' := hholds.added hplace hret
  -- what the index answers before and after
  obtain ⟨before, hbefore, hperm⟩ := hholds.search k
  obtain ⟨after, hafter, hperm'⟩ := hholds'.search k
  have hfilter : log.filter (·.1 = k) = [] := by
    rw [List.filter_eq_nil_iff]
    simpa using hnew
  rw [hfilter] at hperm
  rw [List.filter_append, hfilter] at hperm'
  obtain rfl := List.perm_nil.1 hperm
  obtain rfl : after = [table1.nextPos] := by simpa using hperm'
  intro hisolated
  obtain ⟨res, hres, -, hsame⟩ := hisolated (.search attr.value) trivial (fun _ => true) []
  have hempty := hres.unique
    (search_first hlookup hcolumn htype hk hsi hbefore (fun _ => true) [])
  have hsame := hsame _ (.add hfuel (.none _))
  have hself : (e.sequentialIndexes.replace ⟨other, attr.name⟩ (.int si')).lookup
      ⟨other, attr.name⟩ = some (.int si') := KeyedMap.lookup_replace_self (by simp [hsi])
  have htable : ((e.setSequential ⟨other, attr.name⟩ (.int si')).setTable other
      table1').tablesRaw.lookup tableName = some table := (lookup_setTable_ne hne.symm).trans hlookup
  have hfull := hsame.unique
    (search_first htable hcolumn htype hk hself hafter (fun _ => true) [])
  rw [hempty] at hfull
  cases Except.ok.inj hfull

omit [Unspecified] in
/-- For a table whose index, if it has one on the attribute, points to its rows: when no other table
has an index on an attribute of that name, the table is isolated from every other one in every order
of the map. From a table with such an index that takes a row under a new key it is not, in the order
with that index first. -/
theorem isolated_when (hlookup : e.tablesRaw.lookup tableName = some table)
    (hcolumn : table.getAttributeIdx attributeName = .ok i)
    (htype : table.attributeTypes[i]? = some type) (hclosed : table.leftOpen = none)
    (hstores : table.Stores (rows.map fun row => { fields := row }))
    (hright : ∀ idx, e.sequentialIndexes.lookup ⟨tableName, attributeName⟩ = some idx →
      Right table rows i idx) :
    (e.OwnName tableName attributeName → ∀ (_ : Unspecified) (other : Bytes), other ≠ tableName →
      e.Isolated tableName attributeName other table rows type i) ∧
    ∀ other, other ≠ tableName → type = .int → e.TakesRow ⟨other, attributeName⟩ →
      ∃ _ : Unspecified, ¬ e.Isolated tableName attributeName other table rows type i := by
  refine ⟨fun hown _ other hne => ?_, ?_⟩
  · exact isolated_of_ownName hlookup hcolumn htype hclosed hstores hright hown hne
  · rintro other hne rfl htakes
    exact ⟨_, not_isolated hlookup hcolumn htype hne htakes⟩

omit [FloatType] [Unspecified] in
/-- An index that mirrors its column points to the rows. -/
theorem Mirrors.pointsTo {si : SequentialIndex Int} (h : Mirrors table i rows si) :
    PointsTo table rows i stoi si := by
  obtain ⟨keys, hkeys, hholds⟩ := h
  refine ⟨_, hholds, fun p hp => ?_⟩
  obtain ⟨⟨k, n⟩, hmem, rfl⟩ := List.mem_map.1 hp
  obtain ⟨hn, hk⟩ := List.getElem?_eq_some_iff.1 (List.mem_zipIdx_iff_getElem?.1 hmem)
  have hn' : n < rows.length := hkeys.length_eq ▸ hn
  have hrow := hkeys.get hn' hn
  simp only [List.get_eq_getElem, hk, Record.intAt] at hrow
  obtain ⟨field, hfield, hcast⟩ := bind_eq_ok.1 hrow
  exact ⟨n, hn', rfl, field, k, HeapFile.vectorAt_eq_ok.1 hfield, hcast, rfl⟩

/-- In a state whose indexes mirror their columns, what `isolated_when` asks of a table holds. -/
theorem CallRun.right [IntCast FloatType.Value] {log : List (Bytes × List Bytes)}
    (h : CallRun Keeps log e) (hlookup : e.tablesRaw.lookup tableName = some table)
    (hcolumn : table.getAttributeIdx attributeName = .ok i) (idx : IndexContainer SequentialIndex)
    (hidx : e.sequentialIndexes.lookup ⟨tableName, attributeName⟩ = some idx) :
    Right table (live log tableName) i idx := by
  obtain ⟨table1, i1, si, hl, -, hidx1, rfl, hm⟩ := indexes_of_run h hidx
  cases hlookup.symm.trans hl
  cases hcolumn.symm.trans hidx1
  exact hm.pointsTo

end DBEngine

end

section
attribute [local instance] noFloats firstChoice noFloatsCast

/-- A table with a row, and another one with an attribute of another name. -/
theorem isolated_when_sample : ∃ log e table, DBEngine.CallRun DBEngine.Keeps log e ∧
    DBEngine.live log (ascii "a") = [[ascii "7"]] ∧
    e.tablesRaw.lookup (ascii "a") = some table ∧ ascii "b" ∈ e.tablesRaw ∧
    e.Isolated (ascii "a") (ascii "id") (ascii "b") table [[ascii "7"]] .int 0 := by
  have h1 : DBEngine.CallRun DBEngine.Keeps _ _ := DBEngine.CallRun.start.step
    (.createTable (ascii "a") (ascii "id") [.int] [ascii "id"])
    (by rw [DBEngine.Keeps]; decide) (.createTable (by simp) rfl)
  have h2 : DBEngine.CallRun DBEngine.Keeps _ _ := h1.step
    (.createTable (ascii "b") (ascii "k") [.int] [ascii "k"])
    (by rw [DBEngine.Keeps]; decide) (.createTable (by simp) rfl)
  have h3 : DBEngine.CallRun DBEngine.Keeps _ _ := h2.step (.add (ascii "a") [ascii "7"])
    ⟨fun table hl index hin htable => by
      cases hl
      rcases List.mem_cons.1 hin with rfl | hin
      · cases htable
      · obtain rfl := List.mem_singleton.1 hin
        rfl,
    fun table hl k si _ hsi hmisplaced => by
      cases hl
      cases hsi
      cases hmisplaced.1⟩
    (.add (.of_add 5 fun _ => rfl))
  have hfilled := h3.consistent.2.filled (ascii "a") _ rfl
  refine ⟨_, _, _, h3, rfl, rfl, by decide, ?_⟩
  refine (DBEngine.isolated_when rfl rfl rfl hfilled.closed hfilled.stores
    (DBEngine.CallRun.right h3 rfl rfl)).1 (fun index hin hname => ?_) _ _ (by decide)
  rcases List.mem_cons.1 hin with rfl | hin
  · cases hname
  · obtain rfl := List.mem_singleton.1 hin
    rfl

/-- Two tables with a primary key of the same name: a row of the one is found in the other. -/
theorem not_isolated_of_run : ∃ log e table, DBEngine.CallRun (fun _ _ => True) log e ∧
    e.tablesRaw.lookup (ascii "a") = some table ∧ DBEngine.live log (ascii "a") = [] ∧
    ∃ _ : Unspecified,
      ¬ e.Isolated (ascii "a") (ascii "id") (ascii "b") table [] .int 0 := by
  have h1 : DBEngine.CallRun (fun _ _ => True) _ _ := DBEngine.CallRun.start.step
    (.createTable (ascii "a") (ascii "id") [.int] [ascii "id"]) trivial
    (.createTable (by simp) rfl)
  have h2 : DBEngine.CallRun (fun _ _ => True) _ _ := h1.step
    (.createTable (ascii "b") (ascii "id") [.int] [ascii "id"]) trivial
    (.createTable (by simp) rfl)
  refine ⟨_, _, _, h2, rfl, rfl, _, DBEngine.not_isolated rfl rfl rfl (by decide) ?_⟩
  exact ⟨[ascii "7"], _, _, ⟨ascii "id", ascii "7"⟩, 7, .createFile true, [],
    .of_add 5 fun _ => rfl, rfl, rfl, rfl, rfl, rfl,
    ⟨[], Multimap.empty, SequentialIndex.wellFormed_createFile true, .nil, .nil⟩, nofun,
    fun hmisplaced => by cases hmisplaced.1⟩

end

end DbEngine

end Rdbms
