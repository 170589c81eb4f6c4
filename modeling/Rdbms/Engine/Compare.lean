import Mathlib.Order.BooleanAlgebra.Basic
import Rdbms.Engine.Add
import Rdbms.Heap.Filter

/-!
# Comparators

`get_comparator` makes the predicate for a comparison of a column with a text. The function that
compares the two cast values is handed to `cast_and_execute`, which drops its result, and the
predicate returns whether the operator is `EQUAL`. So it decides the comparison exactly where that
happens to be the answer (`comparator_decides_iff`), and on no record for every operator
(`not_decides_all`).
-/

namespace Rdbms

namespace DbEngine

/-- `Comp`. -/
inductive Comp
  | equal
  | ge
  | le
  | g
  | l
deriving DecidableEq, Repr

/-- A type that `cast_and_execute` casts to. `equal` is the `case EQUAL` of the comparison for it. -/
class CastType (κ : Type) extends LinearOrder κ where
  equal : κ → κ → Bool

instance : CastType Int where
  equal compareValue recordValue := compareValue = recordValue

instance : CastType Bool where
  equal compareValue recordValue := compareValue = recordValue

instance : CastType Bytes where
  equal compareValue recordValue := compareValue = recordValue

/-- `compare_value - record_value < FLOAT_EPSILON`. -/
class FloatDifference [FloatType] where
  ltEpsilon : FloatType.Value → FloatType.Value → Bool

instance [FloatType] [FloatDifference] : CastType FloatType.Value where
  equal := FloatDifference.ltEpsilon

/-- The `switch` of `get_comparator`. -/
def Comp.compare {κ : Type} [CastType κ] (cmp : Comp) (compareValue recordValue : κ) : Bool :=
  match cmp with
  | equal => CastType.equal compareValue recordValue
  | le => compareValue ≤ recordValue
  | g => compareValue > recordValue
  | l => compareValue < recordValue
  | ge => compareValue ≥ recordValue

/-- Some comparison holds though the operator is not `EQUAL`, or `EQUAL` does not hold. -/
theorem Comp.exists_compare_ne {κ : Type} [CastType κ] (compareValue recordValue : κ) :
    ∃ cmp : Comp, ¬ (cmp.compare compareValue recordValue = true ↔ cmp = .equal) := by
  by_cases hequal : CastType.equal compareValue recordValue = true
  · rcases le_or_gt compareValue recordValue with hle | hgt
    · exact ⟨.le, fun h => nomatch h.1 (decide_eq_true hle)⟩
    · exact ⟨.g, fun h => nomatch h.1 (decide_eq_true hgt)⟩
  · exact ⟨.equal, fun h => hequal (h.2 rfl)⟩

section
variable [FloatType] [FloatDifference]

/-- `cast_and_execute` with two values. What `func` returns is dropped. -/
def castAndExecute₂ {β : Type} (type : FieldType) (att1 att2 : Bytes)
    (func : ∀ {κ : Type} [CastType κ], κ → κ → β) : Except Exn Unit :=
  match type with
  | .int => do
    let value1 ← stoi att1
    let value2 ← stoi att2
    let _ := func value1 value2
    return ()
  | .float => do
    let value1 ← FloatType.stof att1
    let value2 ← FloatType.stof att2
    let _ := func value1 value2
    return ()
  | .bool =>
    let _ := func (stob att1) (stob att2)
    .ok ()
  | .varchar _ =>
    let _ := func att1 att2
    .ok ()

/-- `get_comparator`. -/
def DBEngine.getComparator (e : DBEngine) (tableName : Bytes) (cmp : Comp)
    (columnName stringToCompare : Bytes) : Except Exn (Record → Except Exn Bool) := do
  let table ← e.tableAt tableName
  let type ← table.getType columnName
  let index ← table.getAttributeIdx columnName
  return fun record => do
    let attributeRaw ← HeapFile.vectorAt record.fields index
    castAndExecute₂ type stringToCompare attributeRaw cmp.compare
    return cmp = .equal

variable {e : DBEngine} {tableName columnName stringToCompare field : Bytes} {table : HeapFile}
  {cmp : Comp} {type : FieldType} {record : Record} {holds : Bool}

/-- Two texts that cast to a type, and whether the comparison holds of the values. -/
inductive Compared (cmp : Comp) : FieldType → Bytes → Bytes → Bool → Prop
  | int {att1 att2 : Bytes} {v w : Int} (hv : stoi att1 = .ok v) (hw : stoi att2 = .ok w) :
      Compared cmp .int att1 att2 (cmp.compare v w)
  | float {att1 att2 : Bytes} {v w : FloatType.Value} (hv : FloatType.stof att1 = .ok v)
      (hw : FloatType.stof att2 = .ok w) : Compared cmp .float att1 att2 (cmp.compare v w)
  | bool (att1 att2 : Bytes) : Compared cmp .bool att1 att2 (cmp.compare (stob att1) (stob att2))
  | varchar (size : UInt16) (att1 att2 : Bytes) :
      Compared cmp (.varchar size) att1 att2 (cmp.compare att1 att2)

namespace DBEngine

/-- The predicate for a column gives this answer on a record. -/
def Decides (e : DBEngine) (tableName : Bytes) (cmp : Comp) (columnName stringToCompare : Bytes)
    (record : Record) (holds : Bool) : Prop :=
  ∃ predicate, e.getComparator tableName cmp columnName stringToCompare = .ok predicate ∧
    predicate record = .ok holds

/-- `cast_and_execute` throws nothing when both texts cast. -/
theorem castAndExecute₂_eq_ok {β : Type} (cmp : Comp) {att1 att2 : Bytes}
    {func : ∀ {κ : Type} [CastType κ], κ → κ → β} :
    castAndExecute₂ type att1 att2 func = .ok () ↔ ∃ holds, Compared cmp type att1 att2 holds := by
  constructor
  · intro h
    cases type with
    | int =>
      obtain ⟨v, hv, h⟩ := bind_eq_ok.1 h
      obtain ⟨w, hw, -⟩ := bind_eq_ok.1 h
      exact ⟨_, .int hv hw⟩
    | float =>
      obtain ⟨v, hv, h⟩ := bind_eq_ok.1 h
      obtain ⟨w, hw, -⟩ := bind_eq_ok.1 h
      exact ⟨_, .float hv hw⟩
    | bool => exact ⟨_, .bool _ _⟩
    | varchar size => exact ⟨_, .varchar _ _ _⟩
  · rintro ⟨holds, h⟩
    cases h with
    | int hv hw => exact bind_eq_ok.2 ⟨_, hv, bind_eq_ok.2 ⟨_, hw, rfl⟩⟩
    | float hv hw => exact bind_eq_ok.2 ⟨_, hv, bind_eq_ok.2 ⟨_, hw, rfl⟩⟩
    | bool => rfl
    | varchar => rfl

/-- The predicate looks at the column only to cast it. -/
theorem decides_iff (htable : e.tablesRaw.lookup tableName = some table)
    (hname : columnName ∈ table.attributeNames) {i : Nat}
    (hi : table.attributeNames.idxOf columnName % 256 = i) :
    e.Decides tableName cmp columnName stringToCompare record holds ↔
      (holds = true ↔ cmp = .equal) ∧
        ∃ type field holds', table.attributeTypes[i]? = some type ∧
          record.fields[i]? = some field ∧ Compared cmp type stringToCompare field holds' := by
  have hidx : table.getAttributeIdx columnName = .ok i := by
    rw [HeapFile.getAttributeIdx_of_mem hname, hi]
  constructor
  · rintro ⟨predicate, hget, hret⟩
    obtain ⟨table', hat, hget⟩ := bind_eq_ok.1 hget
    cases (tableAt_of_lookup htable).symm.trans hat
    obtain ⟨type, htype, hget⟩ := bind_eq_ok.1 hget
    obtain ⟨i', hidx', hget⟩ := bind_eq_ok.1 hget
    cases hidx.symm.trans hidx'
    cases hget
    obtain ⟨field, hfield, hret⟩ := bind_eq_ok.1 hret
    obtain ⟨u, hcast, hret⟩ := bind_eq_ok.1 hret
    obtain ⟨holds', hcompared⟩ := (castAndExecute₂_eq_ok cmp).1 hcast
    obtain ⟨i', hidx', htype⟩ := bind_eq_ok.1 htype
    cases hidx.symm.trans hidx'
    obtain rfl := Except.ok.inj hret
    exact ⟨decide_eq_true_iff, type, field, holds', HeapFile.vectorAt_eq_ok.1 htype,
      HeapFile.vectorAt_eq_ok.1 hfield, hcompared⟩
  · rintro ⟨hholds, type, field, holds', htype, hfield, hcompared⟩
    have hgetType : table.getType columnName = .ok type :=
      bind_eq_ok.2 ⟨i, hidx, HeapFile.vectorAt_eq_ok.2 htype⟩
    refine ⟨_, bind_eq_ok.2 ⟨table, tableAt_of_lookup htable,
      bind_eq_ok.2 ⟨type, hgetType, bind_eq_ok.2 ⟨i, hidx, rfl⟩⟩⟩, ?_⟩
    refine bind_eq_ok.2 ⟨field, HeapFile.vectorAt_eq_ok.2 hfield, ?_⟩
    refine bind_eq_ok.2 ⟨(), (castAndExecute₂_eq_ok cmp).2 ⟨holds', hcompared⟩, ?_⟩
    exact congrArg Except.ok (Bool.eq_iff_iff.2 (decide_eq_true_iff.trans hholds.symm))

/-- The predicate gives the comparison of the values that the text and the field of the column cast
to exactly when the comparison holds just if the operator is `EQUAL`. A column behind the first 256
has another one's index, and then the field there has to cast as well. -/
theorem comparator_decides_iff (htable : e.tablesRaw.lookup tableName = some table) {i : Nat}
    (hname : columnName ∈ table.attributeNames)
    (hi : table.attributeNames.idxOf columnName = i)
    (htype : table.attributeTypes[i]? = some type) (hfield : record.fields[i]? = some field)
    (hcompared : Compared cmp type stringToCompare field holds) :
    e.Decides tableName cmp columnName stringToCompare record holds ↔
      (holds = true ↔ cmp = .equal) ∧
        (i < 256 ∨ ∃ type' field' holds', table.attributeTypes[i % 256]? = some type' ∧
          record.fields[i % 256]? = some field' ∧
            Compared cmp type' stringToCompare field' holds') := by
  rw [decides_iff htable hname (congrArg (· % 256) hi)]
  refine and_congr_right fun _ => ⟨.inr, ?_⟩
  rintro (hlt | hcast)
  · rw [Nat.mod_eq_of_lt hlt]
    exact ⟨type, field, holds, htype, hfield, hcompared⟩
  · exact hcast

/-- On no record do the predicates for all operators give the comparisons. -/
theorem not_decides_all (htable : e.tablesRaw.lookup tableName = some table)
    (hname : columnName ∈ table.attributeNames)
    (hcompared : Compared cmp type stringToCompare field holds) (record : Record) :
    ∃ cmp' holds', Compared cmp' type stringToCompare field holds' ∧
      ¬ e.Decides tableName cmp' columnName stringToCompare record holds' := by
  have hwrong : ∃ cmp' holds', Compared cmp' type stringToCompare field holds' ∧
      ¬ (holds' = true ↔ cmp' = .equal) := by
    cases hcompared with
    | @int _ _ v w hv hw =>
      obtain ⟨cmp', hne⟩ := Comp.exists_compare_ne v w
      exact ⟨cmp', _, .int hv hw, hne⟩
    | @float _ _ v w hv hw =>
      obtain ⟨cmp', hne⟩ := Comp.exists_compare_ne v w
      exact ⟨cmp', _, .float hv hw, hne⟩
    | bool =>
      obtain ⟨cmp', hne⟩ := Comp.exists_compare_ne (stob stringToCompare) (stob field)
      exact ⟨cmp', _, .bool _ _, hne⟩
    | varchar size =>
      obtain ⟨cmp', hne⟩ := Comp.exists_compare_ne stringToCompare field
      exact ⟨cmp', _, .varchar size _ _, hne⟩
  obtain ⟨cmp', holds', hcompared', hne⟩ := hwrong
  exact ⟨cmp', holds', hcompared', fun h => hne ((decides_iff htable hname rfl).1 h).1⟩

end DBEngine

end

section
attribute [local instance] noFloats

local instance noDifference : FloatDifference := ⟨fun _ _ => true⟩

/-- `EQUAL` on the number that is in the column. -/
theorem comparator_decides_iff_sample : ∃ e : DBEngine,
    e.Decides (ascii "t") .equal (ascii "id") (ascii "7") { fields := [ascii "7"] } true := by
  let table : HeapFile :=
    { attributeNames := [ascii "id"], attributeTypes := [.int], primaryKey := ascii "id" }
  let e : DBEngine := { tablesRaw := KeyedMap.emplace ∅ (ascii "t") table }
  have hcompared : Compared .equal .int (ascii "7") (ascii "7") true :=
    .int (v := 7) (w := 7) rfl rfl
  exact ⟨e, (DBEngine.comparator_decides_iff
    (rfl : e.tablesRaw.lookup (ascii "t") = some table) (.head _) rfl rfl rfl hcompared).2
      ⟨iff_of_true rfl rfl, .inl (by decide)⟩⟩

/-- `5 < 7` holds, and the predicate for `L` says that it does not. -/
theorem not_comparator_decides : ∃ e : DBEngine,
    Compared .l .int (ascii "5") (ascii "7") true ∧
    e.Decides (ascii "t") .l (ascii "id") (ascii "5") { fields := [ascii "7"] } false ∧
    ¬ e.Decides (ascii "t") .l (ascii "id") (ascii "5") { fields := [ascii "7"] } true := by
  let table : HeapFile :=
    { attributeNames := [ascii "id"], attributeTypes := [.int], primaryKey := ascii "id" }
  let e : DBEngine := { tablesRaw := KeyedMap.emplace ∅ (ascii "t") table }
  have htable : e.tablesRaw.lookup (ascii "t") = some table := rfl
  have hcompared : Compared .l .int (ascii "5") (ascii "7") true := .int (v := 5) (w := 7) rfl rfl
  refine ⟨e, hcompared, ?_, fun h => ?_⟩
  · exact (DBEngine.decides_iff htable (.head _) rfl).2
      ⟨iff_of_false nofun nofun, _, _, true, rfl, rfl, hcompared⟩
  · exact nomatch ((DBEngine.decides_iff htable (.head _) rfl).1 h).1.1 rfl

end

end DbEngine

end Rdbms
