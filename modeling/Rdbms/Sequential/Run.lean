import Rdbms.Sequential.Insert

/-!
# Runs of insertions

A fresh index is well formed and holds nothing, and `add` keeps an index well formed as long as the
new header is not misplaced, so every run of such insertions leaves an index that answers with all
that was added (`search_of_run`). The four insertions of `lost_of_run` end in a misplaced header and
lose two keys.
-/

namespace Rdbms

namespace SequentialIndex
variable {κ : Type} [KeyType κ] {si : SequentialIndex κ}

/-- A run of `add` calls on a fresh index with `PK = false`, in each of which `ok` holds of the
index and the key before the call: what was added, and the index after it. -/
inductive AddRun (ok : SequentialIndex κ → κ → Prop) : List (κ × Int) → SequentialIndex κ → Prop
  | start : AddRun ok [] (createFile false)
  | add {log : List (κ × Int)} {si si' : SequentialIndex κ} {k : κ} {v : Int} {res : Except Exn _} :
      AddRun ok log si → ok si k → Returns (si.add · k v) (res, si') →
      AddRun ok (log ++ [(k, v)]) si'

/-- A new index is well formed. -/
theorem wellFormed_createFile (pk : Bool) : (createFile pk : SequentialIndex κ).WellFormed [] where
  chain := .nil
  sorted := .nil
  own := own_of_files (by simp [createFile]) (by simp [createFile])
  index := rfl
  aux := .nil
  auxEmpty _ := rfl
  duplicates := by simp

/-- An index that holds the positions of `log`. -/
def Holds (si : SequentialIndex κ) (log : List (κ × Int)) : Prop :=
  ∃ c m, si.WellFormed c ∧ si.Contents c m ∧ m.pairs.Perm log

/-- One insertion whose header is not misplaced. -/
theorem Holds.add {log : List (κ × Int)} (h : si.Holds log) (hpk : si.pk = false) {k : κ}
    (hplace : ¬ si.HeaderMisplaced k) (v : Int) :
    ∃ records si', Returns (si.add · k v) (.ok records, si') ∧ si'.pk = false ∧
      si'.Holds (log ++ [(k, v)]) := by
  obtain ⟨c, m, hwf, hm, hlog⟩ := h
  obtain ⟨res, hret, hins⟩ := add_returns hwf hm v hplace
  cases hins with
  | refused hpk' => rw [hpk] at hpk'; cases hpk'
  | @done records si' c' _ hpk' hwf' hm' =>
    refine ⟨records, si', hret, hpk'.trans hpk, c', m.insert k v, hwf', hm', ?_⟩
    exact Multimap.pairs_insert.trans ((hlog.cons _).trans (List.perm_append_singleton _ _).symm)

/-- One insertion of a primary key whose header is not misplaced. -/
theorem Holds.add_pk {log : List (κ × Int)} (h : si.Holds log) (hpk : si.pk = true) {k : κ}
    (hplace : ¬ si.HeaderMisplaced k) (v : Int) :
    ((∃ p ∈ log, p.1 = k) ∧ ∃ ex, Returns (si.add · k v) (.error ex, si)) ∨
      (∀ p ∈ log, p.1 ≠ k) ∧ ∃ records si', Returns (si.add · k v) (.ok records, si') ∧
        si'.pk = true ∧ si'.Holds (log ++ [(k, v)]) := by
  obtain ⟨c, m, hwf, hm, hlog⟩ := h
  have hstored : (∃ r ∈ c, r.data = k) ↔ ∃ p ∈ log, p.1 = k := by
    rw [hm.stored_iff]
    constructor
    · rintro ⟨w, hw⟩
      exact ⟨_, hlog.subset hw, rfl⟩
    · rintro ⟨⟨k', w⟩, hp, rfl⟩
      exact ⟨w, hlog.symm.subset hp⟩
  obtain ⟨res, hret, hins⟩ := add_returns hwf hm v hplace
  cases hins with
  | refused _ hk => exact .inl ⟨hstored.1 hk, _, hret⟩
  | @done records si' c' hnew hpk' hwf' hm' =>
    refine .inr ⟨fun p hp hkey => ?_, records, si', hret, hpk'.trans hpk, c', m.insert k v, hwf',
      hm', ?_⟩
    · obtain ⟨r, hr, hrk⟩ := hstored.2 ⟨p, hp, hkey⟩
      exact hnew hpk r hr hrk
    · exact Multimap.pairs_insert.trans ((hlog.cons _).trans (List.perm_append_singleton _ _).symm)

/-- An insertion that succeeds, with a header that is not misplaced. -/
theorem Holds.added {log : List (κ × Int)} (h : si.Holds log) {k : κ} {v : Int}
    (hplace : ¬ si.HeaderMisplaced k) {records : List Int} {si' : SequentialIndex κ}
    (hadd : Returns (si.add · k v) (.ok records, si')) : si'.Holds (log ++ [(k, v)]) := by
  cases hpk : si.pk with
  | false =>
    obtain ⟨_, _, hret, -, hholds⟩ := h.add hpk hplace v
    cases hadd.unique hret
    exact hholds
  | true =>
    rcases h.add_pk hpk hplace v with ⟨-, ex, hret⟩ | ⟨-, _, _, hret, -, hholds⟩
    · cases hadd.unique hret
    · cases hadd.unique hret
      exact hholds

/-- Every run of insertions without a misplaced header. -/
theorem AddRun.holds {log : List (κ × Int)} (h : AddRun (¬ HeaderMisplaced · ·) log si) :
    si.pk = false ∧ si.Holds log := by
  induction h with
  | start => exact ⟨rfl, [], Multimap.empty, wellFormed_createFile false, .nil, .nil⟩
  | add _ hplace hret ih =>
    obtain ⟨records, si'', hret', hpk, hholds⟩ := ih.2.add ih.1 hplace _
    cases hret.unique hret'
    exact ⟨hpk, hholds⟩

/-- A lookup in an index that holds `log`. -/
theorem Holds.search {log : List (κ × Int)} (h : si.Holds log) (k : κ) :
    ∃ res, Returns (si.search · k) res ∧ res.Perm ((log.filter (·.1 = k)).map (·.2)) := by
  obtain ⟨c, m, hwf, hm, hlog⟩ := h
  refine ⟨_, search_returns hwf.linked hm k, ?_⟩
  rw [Multimap.values_eq_pairs]
  exact (hlog.filter _).map _

/-- The range queries in an index that holds `log`: its pairs in the order of the keys, and of them
those with keys between the two. -/
theorem Holds.rangeSearch_sorted {log : List (κ × Int)} (h : si.Holds log) :
    ∃ pairs : List (κ × Int), pairs.Perm log ∧ pairs.Pairwise (fun p q => p.1 ≤ q.1) ∧
      ∀ b e, Returns (si.rangeSearch · b e)
        ((pairs.filter fun p => b ≤ p.1 ∧ p.1 ≤ e).map (·.2)) := by
  obtain ⟨c, m, hwf, hm, hlog⟩ := h
  refine ⟨m.pairs, hlog, m.pairs_sorted, fun b e => ?_⟩
  rw [← m.between_eq_pairs]
  exact rangeSearch_returns hwf.linked hm b e

/-- A range query in an index that holds `log`. -/
theorem Holds.rangeSearch {log : List (κ × Int)} (h : si.Holds log) (b e : κ) :
    ∃ res, Returns (si.rangeSearch · b e) res ∧
      ∀ v ∈ res, ∃ p ∈ log, p.2 = v ∧ b ≤ p.1 ∧ p.1 ≤ e := by
  obtain ⟨pairs, hperm, -, hret⟩ := h.rangeSearch_sorted
  refine ⟨_, hret b e, fun v hv => ?_⟩
  obtain ⟨p, hp, rfl⟩ := List.mem_map.1 hv
  obtain ⟨hmem, hrange⟩ := List.mem_filter.1 hp
  exact ⟨p, hperm.subset hmem, rfl, of_decide_eq_true hrange⟩

/-- After every run of insertions without a misplaced header: the chain from the header ends and
has strictly increasing keys, `search` comes back with the positions that were added under the key,
and so the next such insertion comes back. -/
theorem search_of_run {log : List (κ × Int)} (h : AddRun (¬ HeaderMisplaced · ·) log si) :
    (∃ c, si.Chain c ∧ SortedBy (·.data) c) ∧
    (∀ k, ∃ res, Returns (si.search · k) res ∧
      res.Perm ((log.filter (·.1 = k)).map (·.2))) ∧
    ∀ k v, ¬ si.HeaderMisplaced k →
      ∃ records si', Returns (si.add · k v) (.ok records, si') := by
  obtain ⟨hpk, hholds⟩ := h.holds
  have ⟨c, m, hwf, hm, hlog⟩ := hholds
  refine ⟨⟨c, hwf.chain, hwf.sorted⟩, hholds.search, fun k v hplace => ?_⟩
  obtain ⟨records, si', hret, -⟩ := hholds.add hpk hplace v
  exact ⟨records, si', hret⟩

/-- The key 10 hangs off the header in the overflow file when 5 is added. -/
theorem lost_of_run : ∃ si : SequentialIndex Int,
    AddRun (fun _ _ => True) [(30, 1), (20, 2), (10, 3), (5, 4)] si ∧
      Returns (si.search · 10) [] ∧ Returns (si.search · 5) [] := by
  have r1 : AddRun (fun _ _ => True) [((30 : Int), 1)] _ := .add .start trivial (.of_add 5 fun _ => rfl)
  have r2 := r1.add (k := 20) (v := 2) trivial (.of_add 5 fun _ => rfl)
  have r3 := r2.add (k := 10) (v := 3) trivial (.of_add 5 fun _ => rfl)
  have r4 := r3.add (k := 5) (v := 4) trivial (.of_add 5 fun _ => rfl)
  exact ⟨_, r4, .of_add 5 fun _ => rfl, .of_add 5 fun _ => rfl⟩

/-- Two insertions below each other, after which both keys are found. -/
theorem search_of_run_sample : ∃ si : SequentialIndex Int,
    AddRun (¬ HeaderMisplaced · ·) [(30, 1), (20, 2)] si ∧
      (∃ res, Returns (si.search · 30) res ∧ res.Perm [1]) ∧
      ∃ res, Returns (si.search · 20) res ∧ res.Perm [2] := by
  have r1 : AddRun (¬ HeaderMisplaced · ·) [((30 : Int), 1)] _ :=
    .add .start (fun h => by cases h.1) (.of_add 5 fun _ => rfl)
  have r2 := r1.add (k := 20) (v := 2) (fun h => by cases h.1) (.of_add 5 fun _ => rfl)
  exact ⟨_, r2, (search_of_run r2).2.1 30, (search_of_run r2).2.1 20⟩

end SequentialIndex

end Rdbms
