import Rdbms.Engine.Select
import Rdbms.Sequential.Run

/-!
# Range queries

`range_search` between two keys, with a limit in the place of either. It replaces a limit by the
smallest or the largest `int` and by the name of the other bound, asks the index on that name, reads
the rows at the positions and cuts them down. That answers the query (`rangeSearch_answers`), unless
both bounds are limits: then the rows that it has loaded are dropped, and the column that it looks
for is called `MAX`.
-/

namespace Rdbms

namespace DbEngine

section
variable [FloatType] {e : DBEngine} {tableName : Bytes} {table table' : HeapFile} {key : Nat → Int}
  {beginKey endKey : Attribute} {lower upper : Option Int} {expr : Record → Bool}
  {selectedAttributes : List Bytes}

/-- Two numbers of an `INT` column are cast. -/
theorem keyCastAndExecute₂_int {β : Type} {att1 att2 : Bytes} {first last : Int}
    (h1 : stoi att1 = .ok first) (h2 : stoi att2 = .ok last)
    (func : ∀ {κ : Type} [KeyType κ], Alternative κ → κ → κ → β) :
    keyCastAndExecute₂ .int att1 att2 func = .ok (some (func .int first last)) := by
  rw [keyCastAndExecute₂, h1, h2]
  rfl

/-! ## The rows by key -/

/-- A key within the bounds. There is no bound in the place of `none`. -/
def InBounds (lower upper : Option Int) (k : Int) : Prop :=
  (∀ first ∈ lower, first ≤ k) ∧ ∀ last ∈ upper, k ≤ last

instance (lower upper : Option Int) : DecidablePred (InBounds lower upper) := fun _ =>
  inferInstanceAs (Decidable (_ ∧ _))

/-- A table with an `INT` primary key, and the keys of its rows. -/
structure IntKeys (table : HeapFile) (key : Nat → Int) : Prop where
  column : table.primaryKey ∈ table.attributeNames.take 256
  type : table.attributeTypes[table.attributeNames.idxOf table.primaryKey]? = some .int
  rows : ∀ n < table.recordCount,
    (table.rowAt n).intAt (table.attributeNames.idxOf table.primaryKey) = .ok (key n)

/-- The numbers of the rows with keys within the bounds. -/
def rowsInBounds (table : HeapFile) (key : Nat → Int) (lower upper : Option Int) : List Nat :=
  (List.range table.recordCount).filter fun n => InBounds lower upper (key n)

/-- The rows with keys within the bounds that satisfy the predicate, cut down to the selected
columns, in ascending order of the keys when there is a bound. -/
def AnswersRange (table : HeapFile) (key : Nat → Int) (lower upper : Option Int)
    (expr : Record → Bool) (selectedAttributes : List Bytes)
    (result : Except Exn (List Record)) : Prop :=
  ∃ order : List Nat, order.Perm (rowsInBounds table key lower upper) ∧
    (lower ≠ none ∨ upper ≠ none → (order.map key).Pairwise (· ≤ ·)) ∧
    result = .ok (((order.map table.rowAt).filter expr).map (table.project selectedAttributes))

/-- The primary-key index answers every range query with the positions of the rows with keys between
the two, in ascending order of the keys. -/
def ExactIndex (e : DBEngine) (tableName : Bytes) (table : HeapFile) (key : Nat → Int) : Prop :=
  ∃ idx, e.sequentialIndexes.lookup ⟨tableName, table.primaryKey⟩ = some idx ∧
    ∀ first last, ∃ (order : List Nat) (idx' : IndexContainer SequentialIndex),
      order.Perm (rowsInBounds table key (some first) (some last)) ∧
      (order.map key).Pairwise (· ≤ ·) ∧
      Returns (idx.rangeSearch · .int first last) (.ok (order.map table.pos), idx')

/-- A row with a key has been read through a stream that could be opened. -/
theorem IntKeys.closed (h : IntKeys table key) {n : Nat} (hn : n < table.recordCount) :
    table.leftOpen = none := by
  by_contra hopen
  have hfields : (table.rowAt n).fields = [] := by
    simp only [HeapFile.rowAt, HeapFile.read, HeapFile.openStream_of_open hopen]
    rfl
  obtain ⟨ex, hex⟩ := intAt_of_fields hfields (table.attributeNames.idxOf table.primaryKey)
  cases hex.symm.trans (h.rows n hn)

/-- A key is an `int`. -/
theorem IntKeys.bounds (h : IntKeys table key) {n : Nat} (hn : n < table.recordCount) :
    -2 ^ 31 ≤ key n ∧ key n ≤ 2 ^ 31 - 1 := by
  have hkey := h.rows n hn
  rw [Record.intAt] at hkey
  cases hfield : HeapFile.vectorAt (table.rowAt n).fields
      (table.attributeNames.idxOf table.primaryKey) with
  | error ex =>
    rw [hfield] at hkey
    cases hkey
  | ok field =>
    rw [hfield] at hkey
    have := stoi_eq_ok hkey
    omega

/-- Without a bound, the limits of `int` do as well. -/
theorem IntKeys.rowsInBounds (h : IntKeys table key) (lower upper : Option Int) :
    DbEngine.rowsInBounds table key (some (lower.getD (-2 ^ 31))) (some (upper.getD (2 ^ 31 - 1))) =
      DbEngine.rowsInBounds table key lower upper := by
  refine List.filter_congr fun n hn => decide_eq_decide.2 ?_
  have hbounds := h.bounds (List.mem_range.1 hn)
  cases lower <;> cases upper <;> simp [InBounds] <;> omega

/-- An index that holds the key of each row with its position is exact. -/
theorem exactIndex_of_holds {si : SequentialIndex Int}
    (hidx : e.sequentialIndexes.lookup ⟨tableName, table.primaryKey⟩ = some (.int si))
    (hholds : si.Holds ((List.range table.recordCount).map fun n => (key n, table.pos n))) :
    ExactIndex e tableName table key := by
  obtain ⟨pairs, hperm, hsorted, hret⟩ := hholds.rangeSearch_sorted
  obtain ⟨rows, rfl, hrows⟩ : ∃ rows : List Nat,
      pairs = rows.map (fun n => (key n, table.pos n)) ∧ rows.Perm (List.range table.recordCount) := by
    have hcomp := congrFun₂ (List.eq_map_comp_perm fun n => (key n, table.pos n)) pairs
      (List.range table.recordCount)
    exact hcomp.mpr hperm
  rw [List.pairwise_map] at hsorted
  refine ⟨_, hidx, fun first last => ?_⟩
  let order := rows.filter fun n => InBounds (some first) (some last) (key n)
  refine ⟨order, .int si, hrows.filter _, ?_, ?_⟩
  · rw [List.pairwise_map]
    exact hsorted.filter _
  · have hpositions : ((rows.map fun n => (key n, table.pos n)).filter
        fun p => first ≤ p.1 ∧ p.1 ≤ last).map (·.2) = order.map table.pos := by
      rw [List.filter_map, List.map_map]
      refine congrArg (List.map table.pos) (List.filter_congr fun n _ => decide_eq_decide.2 ?_)
      simp [InBounds]
    rw [← hpositions]
    refine ((hret first last).map fun positions => (Except.ok positions, IndexContainer.int si)).congr
      fun fuel => ?_
    rw [IndexContainer.rangeSearch, IndexContainer.call]
    simp only [Alternative.int, Option.map_map]
    rfl

/-! ## The bounds -/

/-- A lower bound: the limit, or a text with a number. -/
inductive LowerBound (name : Bytes) : Attribute → Option Int → Prop
  | min : LowerBound name keyLimitsMin none
  | concrete {value : Bytes} {z : Int} (h : stoi value = .ok z) :
      LowerBound name ⟨name, value⟩ (some z)

/-- An upper bound: the limit, or a text with a number. -/
inductive UpperBound (name : Bytes) : Attribute → Option Int → Prop
  | max : UpperBound name keyLimitsMax none
  | concrete {value : Bytes} {z : Int} (h : stoi value = .ok z) :
      UpperBound name ⟨name, value⟩ (some z)

omit [FloatType] in
/-- A text with a number is no limit. -/
theorem ne_keyLimits {name value : Bytes} {z : Int} (h : stoi value = .ok z) :
    (⟨name, value⟩ : Attribute) ≠ keyLimitsMin ∧ (⟨name, value⟩ : Attribute) ≠ keyLimitsMax := by
  constructor
  · intro heq
    cases (Attribute.mk.inj heq).2
    cases h
  · intro heq
    cases (Attribute.mk.inj heq).2
    cases h

namespace DBEngine

omit [FloatType] in
/-- Both bounds become keys of the primary key, unless both are limits. -/
theorem rangeBounds_eq {name : Bytes} (hlower : LowerBound name beginKey lower)
    (hupper : UpperBound name endKey upper)
    (hwhen : lower ≠ none ∨ upper ≠ none ∨ name = ascii "MAX") :
    ∃ value1 value2, rangeBounds beginKey endKey = .ok (⟨name, value1⟩, ⟨name, value2⟩) ∧
      stoi value1 = .ok (lower.getD (-2 ^ 31)) ∧ stoi value2 = .ok (upper.getD (2 ^ 31 - 1)) := by
  cases hlower with
  | min =>
    cases hupper with
    | max =>
      obtain rfl : name = ascii "MAX" := (hwhen.resolve_left (· rfl)).resolve_left (· rfl)
      exact ⟨_, _, rfl, rfl, rfl⟩
    | @concrete value z h =>
      refine ⟨ascii "-2147483648", value, ?_, rfl, h⟩
      rw [rangeBounds, if_neg fun hne => hne.2.2.1 rfl, if_pos rfl]
      simp only [if_neg (ne_keyLimits h).2]
  | @concrete value z h =>
    cases hupper with
    | max =>
      refine ⟨value, ascii "2147483647", ?_, h, rfl⟩
      rw [rangeBounds, if_neg fun hne => hne.2.1.2 rfl, if_neg (ne_keyLimits h).1]
      simp only [if_true]
    | @concrete value' z' h' =>
      refine ⟨value, value', ?_, h, h'⟩
      rw [rangeBounds, if_neg fun hne => hne.1 rfl, if_neg (ne_keyLimits h).1]
      simp only [if_neg (ne_keyLimits h').2]

/-! ## The positions -/

/-- When the key of the table is the only indexed attribute of its name, its index is asked. -/
theorem rangeSearchIndex_eq {name : Bytes} {idx idx' : IndexContainer SequentialIndex}
    {first last : Int} {positions : List Int}
    (hidx : e.sequentialIndexes.lookup ⟨tableName, name⟩ = some idx)
    (hret : Returns (idx.rangeSearch · .int first last) (.ok positions, idx'))
    {indexes : List Index}
    (honly : ∀ index ∈ indexes, index.attributeName = name → index.table = tableName)
    (found : List Int) :
    Returns (e.rangeSearchIndex · name .int first last indexes found)
      (.ok (if ⟨tableName, name⟩ ∈ indexes then positions else found)) := by
  induction indexes generalizing found with
  | nil => exact .of_eq fun _ => rfl
  | cons index indexes ih =>
    have ih := ih fun index hindex => honly index (.tail _ hindex)
    by_cases hname : index.attributeName = name
    · obtain rfl : index = ⟨tableName, name⟩ := by
        rw [← honly index (.head _) hname, ← hname]
      have hmem : (⟨tableName, name⟩ : Index) ∈ (⟨tableName, name⟩ : Index) :: indexes := .head _
      have hrest := ih positions
      rw [ite_self] at hrest
      rw [if_pos hmem]
      filter_upwards [hret, hrest] with fuel h1 h2
      simp only [rangeSearchIndex, hidx, ne_eq, not_true_eq_false, if_false, h1]
      exact h2
    · have hne : (⟨tableName, name⟩ : Index) ≠ index := fun heq => hname (heq ▸ rfl)
      have hmem : (⟨tableName, name⟩ : Index) ∈ index :: indexes ↔
          (⟨tableName, name⟩ : Index) ∈ indexes := by
        rw [List.mem_cons, or_iff_right hne]
      simp only [hmem]
      refine (ih found).congr fun fuel => ?_
      rw [rangeSearchIndex]
      split
      · rfl
      · rw [if_pos hname]

/-! ## The rows -/

/-- Rows that are read through a closed stream. -/
theorem readRows_eq (hclosed : table.leftOpen = none) (expr : Record → Bool) (order : List Nat) :
    readRows expr (order.map table.pos) table = ((order.map table.rowAt).filter expr, table) := by
  induction order with
  | nil => rfl
  | cons n order ih =>
    have hpos : 0 ≤ table.pos n := Int.natCast_nonneg _
    have hread : table.read (table.pos n) = (table.rowAt n, table) := by
      rw [HeapFile.rowAt, HeapFile.read_of_closed hclosed hpos]
    rw [List.map_cons, List.map_cons, readRows, hread]
    simp only [ih, List.filter_cons]

/-- The rows at the positions, cut down to the selected columns. -/
theorem answer_eq (e : DBEngine) (tableName : Bytes) (hrows : IntKeys table key) {order : List Nat}
    (horder : ∀ n ∈ order, n < table.recordCount)
    (htable : table' = table ∨
      table.recordCount = 0 ∧ table'.attributeNames = table.attributeNames)
    (hnames : ∀ name ∈ selectedAttributes, name ∈ table.attributeNames.take 256)
    (hsorted : (selectedAttributes.map table.attributeNames.idxOf).Pairwise (· ≤ ·))
    (expr : Record → Bool) :
    (e.answer tableName table' (order.map table.pos) expr selectedAttributes).1 =
      .ok (((order.map table.rowAt).filter expr).map (table.project selectedAttributes)) := by
  have hnames' : table'.attributeNames = table.attributeNames := by
    rcases htable with rfl | ⟨-, hnames'⟩
    · rfl
    · exact hnames'
  have hread : readRows expr (order.map table.pos) table' =
      ((order.map table.rowAt).filter expr, table') := by
    cases order with
    | nil => rfl
    | cons n order =>
      have hn := horder n (.head _)
      rcases htable with rfl | ⟨hzero, -⟩
      · exact readRows_eq (hrows.closed hn) expr _
      · omega
  rw [answer, hread]
  simp only
  rw [HeapFile.filter_eq_project (hnames' ▸ hnames) (hnames' ▸ hsorted),
    HeapFile.project_of_names hnames']

/-! ## The query -/

/-- A query comes back with these rows. -/
def AnswersRangeSearch [Unspecified] (e : DBEngine) (tableName : Bytes) (table : HeapFile)
    (key : Nat → Int) (beginKey endKey : Attribute) (lower upper : Option Int)
    (expr : Record → Bool) (selectedAttributes : List Bytes) : Prop :=
  ∃ result e', Returns (e.rangeSearch · tableName beginKey endKey expr selectedAttributes)
      (result, e') ∧
    AnswersRange table key lower upper expr selectedAttributes result

/-- No other table has an index on an attribute with the name of the primary key. -/
def OnlyIndex (e : DBEngine) (tableName : Bytes) (table : HeapFile) : Prop :=
  ∀ index ∈ e.sequentialIndexes.keys, index.attributeName = table.primaryKey →
    index.table = tableName

/-- The state behind the first call of `load`, which is made for two limits. -/
inductive Loaded (e : DBEngine) (tableName : Bytes) (beginKey endKey : Attribute)
    (selectedAttributes : List Bytes) : DBEngine → Prop
  | skipped (h : ¬ (beginKey = keyLimitsMin ∧ endKey = keyLimitsMax)) :
      Loaded e tableName beginKey endKey selectedAttributes e
  | loaded {records : List Record} {e1 : DBEngine} (hmin : beginKey = keyLimitsMin)
      (hmax : endKey = keyLimitsMax) (h : e.load tableName selectedAttributes = (.ok records, e1)) :
      Loaded e tableName beginKey endKey selectedAttributes e1

/-- The query once the bounds have been replaced by two keys. -/
theorem rangeSearch_of_bounds [Unspecified] {e1 : DBEngine} {name value1 value2 : Bytes}
    {first last : Int} {positions : List Int}
    (hloaded : Loaded e tableName beginKey endKey selectedAttributes e1)
    (hbounds : rangeBounds beginKey endKey = .ok (⟨name, value1⟩, ⟨name, value2⟩))
    (h1 : stoi value1 = .ok first) (h2 : stoi value2 = .ok last)
    (htable : e1.tablesRaw.lookup tableName = some table') (htype : table'.getType name = .ok .int)
    (hret : Returns (e1.rangeSearchIndex · name .int first last
      (Unspecified.order e1.sequentialIndexes.keys) []) (.ok positions))
    (expr : Record → Bool) :
    Returns (e.rangeSearch · tableName beginKey endKey expr selectedAttributes)
      (e1.answer tableName table' positions expr selectedAttributes) := by
  filter_upwards [hret] with fuel hfuel
  have hat := tableAt_of_lookup htable
  cases hloaded with
  | skipped h =>
    simp only [rangeSearch, if_neg h, hbounds, hat, htype, bind, Except.bind,
      keyCastAndExecute₂_int h1 h2, hfuel, Option.map_some]
  | loaded hmin hmax h =>
    simp only [rangeSearch, if_pos (And.intro hmin hmax), h, Except.map, hbounds, hat, htype, bind,
      Except.bind, keyCastAndExecute₂_int h1 h2, hfuel, Option.map_some]

/-- The state behind the first call of `load`. -/
theorem exists_loaded (htable : e.tablesRaw.lookup tableName = some table)
    (hrows : IntKeys table key)
    (hnames : ∀ name ∈ selectedAttributes, name ∈ table.attributeNames.take 256)
    (hsorted : (selectedAttributes.map table.attributeNames.idxOf).Pairwise (· ≤ ·))
    (beginKey endKey : Attribute) :
    ∃ e1 table1, Loaded e tableName beginKey endKey selectedAttributes e1 ∧
      e1.tablesRaw.lookup tableName = some table1 ∧ e1.sequentialIndexes = e.sequentialIndexes ∧
      table1.attributeTypes = table.attributeTypes ∧
      table1.attributeNames = table.attributeNames ∧
      (table1 = table ∨ table.recordCount = 0) := by
  by_cases h : beginKey = keyLimitsMin ∧ endKey = keyLimitsMax
  · refine ⟨_, table.load.2, .loaded h.1 h.2 (load_eq htable hnames hsorted),
      lookup_setTable_self htable, rfl, table.load_attributes.2, table.load_attributes.1, ?_⟩
    rcases Nat.eq_zero_or_pos table.recordCount with hzero | hpos
    · exact .inr hzero
    · exact .inl (HeapFile.load_of_closed (hrows.closed hpos))
  · exact ⟨e, table, .skipped h, htable, rfl, rfl, rfl, .inl rfl⟩

/-- A query with at least one key, or on a key that is called `MAX`. -/
theorem answersRangeSearch [Unspecified] (htable : e.tablesRaw.lookup tableName = some table)
    (hrows : IntKeys table key) (hexact : ExactIndex e tableName table key)
    (hlower : LowerBound table.primaryKey beginKey lower)
    (hupper : UpperBound table.primaryKey endKey upper)
    (hnames : ∀ name ∈ selectedAttributes, name ∈ table.attributeNames.take 256)
    (hsorted : (selectedAttributes.map table.attributeNames.idxOf).Pairwise (· ≤ ·))
    (honly : e.OnlyIndex tableName table)
    (hwhen : lower ≠ none ∨ upper ≠ none ∨ table.primaryKey = ascii "MAX")
    (expr : Record → Bool) :
    e.AnswersRangeSearch tableName table key beginKey endKey lower upper expr
      selectedAttributes := by
  obtain ⟨value1, value2, hbounds, h1, h2⟩ := rangeBounds_eq hlower hupper hwhen
  obtain ⟨e1, table1, hloaded, htable1, hindexes, htypes1, hnames1, hsame⟩ :=
    exists_loaded htable hrows hnames hsorted beginKey endKey
  obtain ⟨idx, hidx, hindex⟩ := hexact
  obtain ⟨order, idx', hperm, hascending, hret⟩ :=
    hindex (lower.getD (-2 ^ 31)) (upper.getD (2 ^ 31 - 1))
  rw [hrows.rowsInBounds] at hperm
  have htype1 : table1.getType table.primaryKey = .ok .int := by
    refine bind_eq_ok.2 ⟨_, HeapFile.getAttributeIdx_eq_idxOf (hnames1 ▸ hrows.column), ?_⟩
    rw [HeapFile.vectorAt_eq_ok, htypes1, hnames1, hrows.type]
  have hmem : (⟨tableName, table.primaryKey⟩ : Index) ∈
      Unspecified.order e1.sequentialIndexes.keys := by
    rw [(Unspecified.order_perm _).mem_iff, hindexes, ← AList.mem_keys, ← AList.lookup_isSome, hidx]
    rfl
  have honly1 : ∀ index ∈ Unspecified.order e1.sequentialIndexes.keys,
      index.attributeName = table.primaryKey → index.table = tableName := fun index hindex => by
    rw [(Unspecified.order_perm _).mem_iff, hindexes] at hindex
    exact honly index hindex
  have hpositions := rangeSearchIndex_eq (e := e1) (hindexes ▸ hidx) hret honly1 []
  rw [if_pos hmem] at hpositions
  refine ⟨_, _, rangeSearch_of_bounds hloaded hbounds h1 h2 htable1 htype1 hpositions expr, order,
    hperm, fun _ => hascending, ?_⟩
  refine answer_eq e1 tableName hrows (fun n hn => ?_)
    (hsame.imp_right fun hzero => ⟨hzero, hnames1⟩) hnames
    hsorted expr
  exact List.mem_range.1 (List.mem_filter.1 (hperm.subset hn)).1

/-- Two limits on a table without a column `MAX`. -/
theorem rangeSearch_limits [Unspecified] (htable : e.tablesRaw.lookup tableName = some table)
    (hnames : ∀ name ∈ selectedAttributes, name ∈ table.attributeNames.take 256)
    (hsorted : (selectedAttributes.map table.attributeNames.idxOf).Pairwise (· ≤ ·))
    (hmax : ascii "MAX" ∉ table.attributeNames) (fuel : Nat) (expr : Record → Bool) :
    (e.rangeSearch fuel tableName keyLimitsMin keyLimitsMax expr selectedAttributes).map (·.1) =
      some (.error (.runtimeError "Attribute not found")) := by
  have hat : (e.setTable tableName table.load.2).tableAt tableName = .ok table.load.2 :=
    tableAt_of_lookup (lookup_setTable_self htable)
  have hbounds : rangeBounds keyLimitsMin keyLimitsMax =
    .ok (⟨ascii "MAX", ascii "-2147483648"⟩, ⟨ascii "MAX", ascii "2147483647"⟩) := rfl
  have htype : table.load.2.getType (ascii "MAX") =
      .error (.runtimeError "Attribute not found") := by
    have hfind : table.load.2.attributeNames.findIdx? (· = ascii "MAX") = none := by
      rw [List.findIdx?_eq_none_iff, table.load_attributes.1]
      exact fun name hname => decide_eq_false fun heq => hmax (heq ▸ hname)
    rw [HeapFile.getType, HeapFile.getAttributeIdx, hfind]
    rfl
  simp only [rangeSearch, and_self, if_true, load_eq htable hnames hsorted, Except.map,
    hbounds, hat, htype, bind, Except.bind, Option.map_some]

/-- `range_search` gives the rows with keys within the bounds that satisfy the predicate, cut down to
the selected columns, when one of the bounds is a key, or the primary key is called `MAX`, and no
other table has an index on an attribute with the name of the primary key. With two limits on a table
without a column `MAX` it does not. -/
theorem rangeSearch_answers [Unspecified] (htable : e.tablesRaw.lookup tableName = some table)
    (hrows : IntKeys table key) (hexact : ExactIndex e tableName table key)
    (hlower : LowerBound table.primaryKey beginKey lower)
    (hupper : UpperBound table.primaryKey endKey upper)
    (hnames : ∀ name ∈ selectedAttributes, name ∈ table.attributeNames.take 256)
    (hsorted : (selectedAttributes.map table.attributeNames.idxOf).Pairwise (· ≤ ·))
    (expr : Record → Bool) :
    (e.OnlyIndex tableName table ∧
        (lower ≠ none ∨ upper ≠ none ∨ table.primaryKey = ascii "MAX") →
      e.AnswersRangeSearch tableName table key beginKey endKey lower upper expr
        selectedAttributes) ∧
    (lower = none ∧ upper = none ∧ ascii "MAX" ∉ table.attributeNames →
      ¬ e.AnswersRangeSearch tableName table key beginKey endKey lower upper expr
        selectedAttributes) := by
  refine ⟨fun ⟨honly, hwhen⟩ => answersRangeSearch htable hrows hexact hlower hupper hnames hsorted
    honly hwhen expr, ?_⟩
  rintro ⟨rfl, rfl, hmax⟩ ⟨result, e', hret, order, -, -, rfl⟩
  cases hlower
  cases hupper
  obtain ⟨fuel, hfuel⟩ := hret.exists
  have herror := rangeSearch_limits htable hnames hsorted hmax fuel expr
  simp only at hfuel
  rw [hfuel] at herror
  cases herror

end DBEngine

end

section
attribute [local instance] noFloats firstChoice

/-- A table with one row, and its primary-key index. -/
theorem exists_oneRow : ∃ (e : DBEngine) (table : HeapFile),
    e.tablesRaw.lookup (ascii "t") = some table ∧ table.recordCount = 1 ∧
    table.attributeNames = [ascii "id", ascii "n"] ∧ table.primaryKey = ascii "id" ∧
    IntKeys table (fun _ => 7) ∧ ExactIndex e (ascii "t") table (fun _ => 7) ∧
    e.OnlyIndex (ascii "t") table := by
  let table : HeapFile :=
    { attributeNames := [ascii "id", ascii "n"], attributeTypes := [.int, .int]
      primaryKey := ascii "id", recordCount := 1, data := [7, 0, 0, 0, 2, 0, 0, 0] }
  have hempty : (SequentialIndex.createFile true : SequentialIndex Int).Holds [] :=
    ⟨[], .empty, SequentialIndex.wellFormed_createFile true, .nil, .nil⟩
  obtain ⟨⟨p, hp, -⟩, -⟩ | ⟨-, records, si, -, -, hholds⟩ :=
    hempty.add_pk rfl (k := 7) (fun h => by cases h.1) 0
  · cases hp
  let e : DBEngine :=
    { tablesRaw := KeyedMap.emplace ∅ (ascii "t") table
      sequentialIndexes := KeyedMap.emplace ∅ ⟨ascii "t", ascii "id"⟩ (.int si) }
  have hrow : table.rowAt 0 = { fields := [ascii "7", ascii "2"] } := by decide +kernel
  refine ⟨e, table, rfl, rfl, rfl, rfl, ⟨by decide, rfl, fun n hn => ?_⟩,
    exactIndex_of_holds rfl hholds, fun index hindex _ => ?_⟩
  · obtain rfl : n = 0 := Nat.lt_one_iff.1 hn
    rw [hrow]
    rfl
  · obtain rfl := List.mem_singleton.1 hindex
    rfl

/-- The second column of the rows with keys up to 9. -/
theorem rangeSearch_answers_sample : ∃ (e : DBEngine) (table : HeapFile),
    e.tablesRaw.lookup (ascii "t") = some table ∧ table.recordCount = 1 ∧
    e.AnswersRangeSearch (ascii "t") table (fun _ => 7) keyLimitsMin ⟨ascii "id", ascii "9"⟩
      none (some 9) (fun _ => true) [ascii "n"] := by
  obtain ⟨e, table, htable, hcount, hnames, hkey, hrows, hexact, honly⟩ := exists_oneRow
  refine ⟨e, table, htable, hcount, (DBEngine.rangeSearch_answers htable hrows hexact .min ?_ ?_ ?_
    _).1 ⟨honly, .inr (.inl nofun)⟩⟩
  · rw [hkey]
    exact .concrete rfl
  · rw [hnames]
    decide
  · rw [hnames]
    decide

/-- All rows: the query throws. -/
theorem not_rangeSearch_answers : ∃ (e : DBEngine) (table : HeapFile),
    e.tablesRaw.lookup (ascii "t") = some table ∧ table.recordCount = 1 ∧
    IntKeys table (fun _ => 7) ∧ ExactIndex e (ascii "t") table (fun _ => 7) ∧
    (∀ fuel, (e.rangeSearch fuel (ascii "t") keyLimitsMin keyLimitsMax (fun _ => true)
      [ascii "n"]).map (·.1) = some (.error (.runtimeError "Attribute not found"))) ∧
    ¬ e.AnswersRangeSearch (ascii "t") table (fun _ => 7) keyLimitsMin keyLimitsMax none none
      (fun _ => true) [ascii "n"] := by
  obtain ⟨e, table, htable, hcount, hnames, -, hrows, hexact, -⟩ := exists_oneRow
  have herror : ∀ fuel, (e.rangeSearch fuel (ascii "t") keyLimitsMin keyLimitsMax (fun _ => true)
      [ascii "n"]).map (·.1) = some (.error (.runtimeError "Attribute not found")) := by
    refine fun fuel => DBEngine.rangeSearch_limits htable ?_ ?_ ?_ fuel _
    · rw [hnames]
      decide
    · rw [hnames]
      decide
    · rw [hnames]
      decide
  refine ⟨e, table, htable, hcount, hrows, hexact, herror, ?_⟩
  rintro ⟨result, e', hret, order, -, -, rfl⟩
  obtain ⟨fuel, hfuel⟩ := hret.exists
  have := herror fuel
  simp only at hfuel
  rw [hfuel] at this
  cases this

end

end DbEngine

end Rdbms
