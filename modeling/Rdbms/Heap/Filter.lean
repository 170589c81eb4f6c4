import Mathlib.Data.List.GetD
import Rdbms.Lib.Columns
import Rdbms.Heap.HeapFile

/-!
# Selecting columns

`filter` looks each column up among the selected indexes by binary search, and so keeps the selected
columns when the indexes are sorted.
-/

namespace Rdbms

namespace DbEngine

namespace HeapFile
variable {v : List Nat} {i : Nat}

/-- The range of `std::lower_bound`: everything in front of it is below `i` and nothing behind it
is. -/
structure Bounds (v : List Nat) (i first len : Nat) : Prop where
  le : first + len ≤ v.length
  lt : ∀ j (hj : j < v.length), j < first → v[j] < i
  ge : ∀ j (hj : j < v.length), first + len ≤ j → i ≤ v[j]

/-- `std::lower_bound` on sorted elements: where those that are not below `i` start. -/
theorem Bounds.lowerBound (hv : v.Pairwise (· ≤ ·)) {fuel first len : Nat}
    (h : Bounds v i first len) (hfuel : len ≤ fuel) :
    Bounds v i (HeapFile.lowerBound v i fuel first len) 0 := by
  have hsorted : ∀ a b (ha : a < v.length) (hb : b < v.length), a ≤ b → v[a] ≤ v[b] :=
    fun a b ha hb hab => by
      rcases Nat.lt_or_eq_of_le hab with hlt | rfl
      · exact List.pairwise_iff_getElem.1 hv a b ha hb hlt
      · exact le_rfl
  induction fuel generalizing first len with
  | zero =>
    obtain rfl : len = 0 := Nat.le_zero.1 hfuel
    exact h
  | succ fuel ih =>
    rw [HeapFile.lowerBound]
    split_ifs with hlen hmid
    · subst hlen
      exact h
    · -- the middle element is below `i`
      have hle := h.le
      have hm : first + len / 2 < v.length := by omega
      rw [List.getD_eq_getElem _ _ hm] at hmid
      refine ih ⟨by omega, fun j hj hlt => ?_, fun j hj hge => h.ge j hj (by omega)⟩ (by omega)
      exact (hsorted j _ hj hm (by omega)).trans_lt hmid
    · have hle := h.le
      have hm : first + len / 2 < v.length := by omega
      rw [List.getD_eq_getElem _ _ hm] at hmid
      refine ih ⟨by omega, h.lt, fun j hj hge => ?_⟩ (by omega)
      exact (not_lt.1 hmid).trans (hsorted _ j hm hj hge)

/-- `std::binary_search` finds what is there. -/
theorem binarySearch_of_mem (hv : v.Pairwise (· ≤ ·)) (hi : i ∈ v) :
    HeapFile.binarySearch v i = true := by
  have h : Bounds v i (lowerBound v i v.length 0 v.length) 0 :=
    Bounds.lowerBound hv ⟨by omega, fun j hj hlt => absurd hlt (Nat.not_lt_zero j), fun j hj hge =>
      absurd hj (by omega)⟩ le_rfl
  obtain ⟨q, hq, rfl⟩ := List.mem_iff_getElem.1 hi
  generalize hp : lowerBound v v[q] v.length 0 v.length = p at h
  have hpq : p ≤ q := by
    by_contra hlt
    exact lt_irrefl _ (h.lt q hq (not_le.1 hlt))
  have hpv : p < v.length := hpq.trans_lt hq
  have hle : v[p] ≤ v[q] := by
    rcases Nat.lt_or_eq_of_le hpq with hlt | rfl
    · exact List.pairwise_iff_getElem.1 hv p q hpv hq hlt
    · exact le_rfl
  rw [HeapFile.binarySearch, hp, List.getElem?_eq_getElem hpv]
  simp [hle]

/-- `std::binary_search` finds nothing else. -/
theorem mem_of_binarySearch (hv : v.Pairwise (· ≤ ·)) (h : HeapFile.binarySearch v i = true) :
    i ∈ v := by
  have hbounds : Bounds v i (lowerBound v i v.length 0 v.length) 0 :=
    Bounds.lowerBound hv ⟨by omega, fun j hj hlt => absurd hlt (Nat.not_lt_zero j), fun j hj hge =>
      absurd hj (by omega)⟩ le_rfl
  rw [HeapFile.binarySearch] at h
  generalize lowerBound v i v.length 0 v.length = p at h hbounds
  cases hget : v[p]? with
  | none =>
    rw [hget] at h
    cases h
  | some x =>
    obtain ⟨hp, rfl⟩ := List.getElem?_eq_some_iff.1 hget
    have hge : i ≤ v[p] := hbounds.ge p hp le_rfl
    have hle : v[p] ≤ i := by simpa [hget] using h
    rw [hge.antisymm hle]
    exact List.getElem_mem hp

/-- In a sorted list `binary_search` decides membership. -/
theorem binarySearch_eq (hv : v.Pairwise (· ≤ ·)) (i : Nat) :
    HeapFile.binarySearch v i = decide (i ∈ v) :=
  Bool.eq_iff_iff.2 ⟨fun h => decide_eq_true (mem_of_binarySearch hv h), fun h =>
    binarySearch_of_mem hv (of_decide_eq_true h)⟩

/-! ## Records -/

section
variable {attributeIdxs : List Nat} {fields : List Bytes}

/-- The loop keeps the fields at the positions that are found. -/
theorem filterFields_eq_keep (attributeIdxs : List Nat) (fields : List Bytes) :
    filterFields attributeIdxs fields = keep (HeapFile.binarySearch attributeIdxs) fields :=
  foldr_eraseIdx _ _

/-- When the indexes are sorted, the fields at them are left. -/
theorem filterFields_of_sorted (hsorted : attributeIdxs.Pairwise (· ≤ ·)) (fields : List Bytes) :
    filterFields attributeIdxs fields = keep (fun i => decide (i ∈ attributeIdxs)) fields :=
  (filterFields_eq_keep _ _).trans (keep_congr fun i _ => binarySearch_eq hsorted i)

/-- When one column is selected, its field is left. -/
theorem filterFields_singleton (i : Nat) (fields : List Bytes) :
    filterFields [i] fields = fields[i]?.toList := by
  rw [filterFields_of_sorted (List.pairwise_singleton _ i), ← keep_singleton]
  exact keep_congr fun j _ => by simp

end

/-- A row cut down to the selected columns, in the order of the schema. -/
def project (h : HeapFile) (selectedAttributes : List Bytes) (record : Record) : Record :=
  { record with
    fields := keep (fun i => decide (i ∈ selectedAttributes.map h.attributeNames.idxOf))
      record.fields }

variable {table : HeapFile} {selectedAttributes selectedAttributes' : List Bytes}

/-- A projection depends on which names are selected, not on their order. -/
theorem project_congr (h : ∀ name, name ∈ selectedAttributes ↔ name ∈ selectedAttributes') :
    table.project selectedAttributes = table.project selectedAttributes' := by
  funext record
  have hmem : ∀ i, i ∈ selectedAttributes.map table.attributeNames.idxOf ↔
      i ∈ selectedAttributes'.map table.attributeNames.idxOf := fun i => by
    simp only [List.mem_map, h]
  simp only [project, hmem]

/-- The columns depend on the schema only. -/
theorem project_of_names {table' : HeapFile} (h : table'.attributeNames = table.attributeNames) :
    table'.project selectedAttributes = table.project selectedAttributes := by
  funext record
  rw [project, h]
  rfl

/-- A record without fields stays as it is. -/
theorem project_of_nil {record : Record} (h : record.fields = []) :
    table.project selectedAttributes record = record := by
  obtain ⟨status, fields⟩ := record
  obtain rfl : fields = [] := h
  rfl

/-- The selected columns are the first ones. -/
def SelectsFirst (table : HeapFile) (selectedAttributes : List Bytes) : Prop :=
  Initial (fun i => decide (i ∈ selectedAttributes.map table.attributeNames.idxOf))
    table.attributeTypes.length

/-- With the first columns selected, projecting again changes nothing. -/
theorem project_project (hfirst : table.SelectsFirst selectedAttributes) {row : Record}
    (hwidth : row.fields = [] ∨ row.fields.length = table.attributeTypes.length) :
    table.project selectedAttributes (table.project selectedAttributes row) =
      table.project selectedAttributes row := by
  rcases hwidth with hnil | hlen
  · rw [HeapFile.project_of_nil hnil, HeapFile.project_of_nil hnil]
  · exact congrArg (Record.mk row.status) (keep_keep_of_initial (hlen ▸ hfirst))

/-- Columns that are not the first ones: the second time, a column is lost. -/
theorem length_project_project (hfirst : ¬ table.SelectsFirst selectedAttributes) {row : Record}
    (hlen : row.fields.length = table.attributeTypes.length) :
    (table.project selectedAttributes (table.project selectedAttributes row)).fields.length <
      (table.project selectedAttributes row).fields.length := by
  refine lt_of_le_of_ne (length_keep_le _ _) fun heq => hfirst ?_
  rw [SelectsFirst, ← hlen]
  exact initial_of_length_keep heq

/-- With pairwise different names, what is left are the columns with one of the names. -/
theorem project_eq_zip (hnodup : table.attributeNames.Nodup)
    (hnames : ∀ name ∈ selectedAttributes, name ∈ table.attributeNames) {record : Record}
    (hwidth : record.fields.length = table.attributeNames.length) :
    table.project selectedAttributes record =
      { record with
        fields := ((table.attributeNames.zip record.fields).filter
          (·.1 ∈ selectedAttributes)).map (·.2) } := by
  have hkeep : keep (fun i => decide (i ∈ selectedAttributes.map table.attributeNames.idxOf))
      record.fields = ((table.attributeNames.zip record.fields).filter
        fun column => decide (column.1 ∈ selectedAttributes)).map (·.2) := by
    refine keep_zip (c := (decide <| · ∈ selectedAttributes)) hwidth.symm fun j hj => ?_
    refine decide_eq_decide.2 ⟨fun hmem => ?_, fun hmem => ?_⟩
    · obtain ⟨name, hname, hidx⟩ := List.mem_map.1 hmem
      have hget : table.attributeNames[j] = name := by
        subst hidx
        exact List.getElem_idxOf (List.idxOf_lt_length_of_mem (hnames name hname))
      rwa [hget]
    · exact List.mem_map.2 ⟨_, hmem, hnodup.idxOf_getElem j hj⟩
  rw [project, hkeep]

/-- `at` succeeds within the vector. -/
theorem vectorAt_eq_ok {α : Type} {v : List α} {i : Nat} {x : α} :
    vectorAt v i = .ok x ↔ v[i]? = some x := by
  unfold vectorAt
  cases v[i]? with
  | none => simp
  | some y => simp

/-- The index of a column is cast to a `uint8_t`. -/
theorem getAttributeIdx_of_mem {name : Bytes} (h : name ∈ table.attributeNames) :
    table.getAttributeIdx name = .ok (table.attributeNames.idxOf name % 256) := by
  have hfind : table.attributeNames.findIdx? (· = name) =
      some (table.attributeNames.idxOf name) := by
    have heq : (fun x : Bytes => decide (x = name)) = (· == name) := by
      funext x
      rw [beq_eq_decide]
    rw [heq]
    exact List.findIdx?_eq_some_of_exists ⟨name, h, beq_self_eq_true name⟩
  rw [getAttributeIdx, hfind]

/-- The index of one of the first 256 columns. -/
theorem getAttributeIdx_eq_idxOf {name : Bytes} (h : name ∈ table.attributeNames.take 256) :
    table.getAttributeIdx name = .ok (table.attributeNames.idxOf name) := by
  have hlt : table.attributeNames.idxOf name < 256 := by
    have hidx : (table.attributeNames.take 256 ++ table.attributeNames.drop 256).idxOf name =
      (table.attributeNames.take 256).idxOf name := List.idxOf_append_of_mem h
    rw [List.take_append_drop] at hidx
    rw [hidx]
    exact (List.idxOf_lt_length_of_mem h).trans_le (List.length_take_le _ _)
  rw [getAttributeIdx_of_mem (List.mem_of_mem_take h), Nat.mod_eq_of_lt hlt]

/-- A loop in which nothing throws. -/
theorem mapM_ok {α β : Type} {f : α → Except Exn β} {g : α → β} {l : List α}
    (h : ∀ x ∈ l, f x = .ok (g x)) : l.mapM f = .ok (l.map g) := by
  induction l with
  | nil => rfl
  | cons x l ih =>
    rw [List.mapM_cons, h x (.head l), ih fun y hy => h y (.tail x hy)]
    rfl

/-- When the selected columns are in the order of the schema, the rows are cut down to them. -/
theorem filter_eq_project
    (hnames : ∀ name ∈ selectedAttributes, name ∈ table.attributeNames.take 256)
    (hsorted : (selectedAttributes.map table.attributeNames.idxOf).Pairwise (· ≤ ·))
    (records : List Record) :
    table.filter records selectedAttributes =
      .ok (records.map (table.project selectedAttributes)) := by
  rw [filter, mapM_ok fun name hname => getAttributeIdx_eq_idxOf (hnames name hname)]
  refine congrArg Except.ok (List.map_congr_left fun record _ => ?_)
  rw [filterFields_of_sorted hsorted]
  rfl

end HeapFile

end DbEngine

end Rdbms
