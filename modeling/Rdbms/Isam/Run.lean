import Rdbms.Isam.Query
import Rdbms.Isam.Build

/-!
# Runs of insertions into a loaded index

A load leaves a well-formed index, whatever its pages have been made in, and an insertion keeps it
well formed. So after every run the chains end, a range query finds exactly what was inserted, and a
lookup finds some of what was inserted under its key.
-/

namespace Rdbms

namespace ISAM
variable {κ : Type} [IntCast κ] [LinearOrder κ] {isam : ISAM κ}
  {sort : List (ISAMRecord κ) → List (ISAMRecord κ)} {log : List (κ × Int)}

/-- A load of a new index, followed by insertions: what was inserted, and the index after it. -/
inductive AddRun (sort : List (ISAMRecord κ) → List (ISAMRecord κ)) :
    List (κ × Int) → ISAM κ → Prop
  | load {batch : List (κ × Int)} {isam : ISAM κ} {res : Except Exn _} (memory : Nat → Slots κ) :
      maxRecords ≤ batch.length → Returns (create.bulkInsert sort memory · batch) (res, isam) →
      AddRun sort batch isam
  | add {log : List (κ × Int)} {isam isam' : ISAM κ} {res : Except Exn _} (memory : Slots κ)
      (k : κ) (v : Int) : AddRun sort log isam →
      Returns (isam.add memory · k v) (res, isam') → AddRun sort (log ++ [(k, v)]) isam'

/-- An index that holds the positions of `log`. -/
def Holds (isam : ISAM κ) (log : List (κ × Int)) : Prop :=
  ∃ P C, isam.WellFormed P C ∧ P.pairs.Perm log

/-- One insertion. -/
theorem Holds.add (h : isam.Holds log) (memory : Slots κ) (k : κ) (v : Int) :
    ∃ isam', Returns (isam.add memory · k v) (.ok [v], isam') ∧ isam'.Holds (log ++ [(k, v)]) := by
  obtain ⟨P, C, hwf, hlog⟩ := h
  obtain ⟨isam', P', C', hret, hwf', hpairs⟩ := hwf.addRecord memory k v
  refine ⟨isam', hret, P', C', hwf', hpairs.trans ?_⟩
  exact (hlog.cons _).trans (List.perm_append_singleton _ _).symm

/-- Every run. -/
theorem AddRun.holds
    (hsort : ∀ l, (sort l).Perm l ∧ (sort l).Pairwise fun a b => a.key ≤ b.key)
    (h : AddRun sort log isam) : isam.Holds log := by
  induction h with
  | load memory hlen hret =>
    obtain ⟨isam', P, C, hret', hwf, hpairs⟩ := bulkInsert_wellFormed hsort memory _ hlen
    cases hret.unique hret'
    exact ⟨P, C, hwf, hpairs⟩
  | add memory k v _ hret ih =>
    obtain ⟨isam'', hret', hholds⟩ := ih.add memory k v
    cases hret.unique hret'
    exact hholds

omit [IntCast κ] in
/-- The chain below every leaf ends. -/
theorem Holds.chain (h : isam.Holds log) {page : IndexPage κ} (hpage : page ∈ isam.idxFile)
    (hleaf : page.isLeaf) {child : Int} (hchild : child ∈ page.children) :
    ∃ cells, isam.Chain child cells := by
  obtain ⟨P, C, hwf, -⟩ := h
  obtain ⟨q, hq, rfl⟩ := hwf.leaves page hpage hleaf child hchild
  exact ⟨C q, hwf.chain q hq⟩

omit [IntCast κ] in
/-- A range query finds what was inserted. -/
theorem Holds.rangeSearch (h : isam.Holds log) (lo hi : κ) :
    ∃ res, Returns (isam.rangeSearch · lo hi) (.ok res) ∧
      res.Perm ((log.filter fun p => lo ≤ p.1 ∧ p.1 ≤ hi).map (·.2)) := by
  obtain ⟨P, C, hwf, hlog⟩ := h
  refine ⟨_, hwf.rangeSearch lo hi, ?_⟩
  rw [Partition.hits_eq_pairs]
  exact (hlog.filter _).map _

omit [IntCast κ] in
/-- A lookup finds something when the key was inserted, and nothing else. -/
theorem Holds.search (h : isam.Holds log) (k : κ) :
    ∃ res, Returns (isam.search · k) (.ok res) ∧ (res ≠ [] ↔ ∃ v, (k, v) ∈ log) ∧
      res.Subperm ((log.filter (·.1 = k)).map (·.2)) := by
  obtain ⟨P, C, hwf, hlog⟩ := h
  have hmem : (∃ v, (k, v) ∈ log) ↔ ∃ e ∈ P.entriesFrom 0, e.key = k := by
    simp only [← hlog.mem_iff, Partition.pairs, List.mem_flatMap, Entry.mem_pairs]
    constructor
    · rintro ⟨v, e, he, hk, -⟩
      exact ⟨e, he, hk.symm⟩
    · rintro ⟨e, he, hk⟩
      exact ⟨e.first, e, he, hk.symm, .head _⟩
  obtain ⟨res, hret, ⟨e, he, hek, rfl⟩ | ⟨rfl, hno⟩⟩ := hwf.search k
  · refine ⟨_, hret, ⟨fun _ => hmem.2 ⟨e, he, hek⟩, fun _ => List.cons_ne_nil _ _⟩, ?_⟩
    have hsub : e.pairs.Sublist P.pairs := 
      List.sublist_flatten_of_mem (List.mem_map_of_mem he)
    have hself : e.pairs.filter (·.1 = k) = e.pairs :=
      List.filter_eq_self.2 fun p hp => by simpa [← hek] using (Entry.mem_pairs.1 hp).1
    have hvalues : e.values = (e.pairs.filter (·.1 = k)).map (·.2) := by
      rw [hself, Entry.pairs, List.map_map]
      exact (List.map_id' _).symm
    rw [hvalues]
    exact ((hsub.filter _).map _).subperm.trans ((hlog.filter _).map _).subperm
  · refine ⟨[], hret, ⟨fun h => absurd rfl h, fun h => ?_⟩, List.nil_subperm⟩
    obtain ⟨e, he, hek⟩ := hmem.1 h
    exact absurd hek (hno e he)

/-- Loading and inserting lose nothing: a load of 81 pairs or more comes back, and after every run
the chains end, the next insertion comes back, and the queries come back with what was inserted. -/
theorem queries_of_run
    (hsort : ∀ l, (sort l).Perm l ∧ (sort l).Pairwise fun a b => a.key ≤ b.key) :
    (∀ memory batch, maxRecords ≤ batch.length →
      ∃ isam, Returns (create.bulkInsert sort memory · batch) (.ok ([1], [true]), isam)) ∧
    ∀ log isam, AddRun sort log isam →
      (∀ page ∈ isam.idxFile, page.isLeaf → ∀ child ∈ page.children, ∃ cells,
        isam.Chain child cells) ∧
      (∀ memory k v, ∃ isam', Returns (isam.add memory · k v) (.ok [v], isam')) ∧
      (∀ lo hi, ∃ res, Returns (isam.rangeSearch · lo hi) (.ok res) ∧
        res.Perm ((log.filter fun p => lo ≤ p.1 ∧ p.1 ≤ hi).map (·.2))) ∧
      ∀ k, ∃ res, Returns (isam.search · k) (.ok res) ∧ (res ≠ [] ↔ ∃ v, (k, v) ∈ log) ∧
        res.Subperm ((log.filter (·.1 = k)).map (·.2)) := by
  refine ⟨fun memory batch hlen => ?_, fun log isam hrun => ?_⟩
  · obtain ⟨isam, -, -, hret, -⟩ := bulkInsert_wellFormed hsort memory batch hlen
    exact ⟨isam, hret⟩
  · have h := hrun.holds hsort
    refine ⟨fun page hpage hleaf child hchild => h.chain hpage hleaf hchild, fun memory k v => ?_,
      h.rangeSearch, h.search⟩
    obtain ⟨isam', hret, -⟩ := h.add memory k v
    exact ⟨isam', hret⟩

/-- A stable sort by key. -/
def sortByKey (l : List (ISAMRecord Int)) : List (ISAMRecord Int) :=
  l.mergeSort fun a b => a.key ≤ b.key

/-- A merge sort is a sort. -/
theorem sortByKey_spec (l : List (ISAMRecord Int)) :
    (sortByKey l).Perm l ∧ (sortByKey l).Pairwise fun a b => a.key ≤ b.key := by
  refine ⟨List.mergeSort_perm _ _, (List.pairwise_mergeSort (fun a b c h1 h2 => ?_) (fun a b => ?_)
    l).imp fun h => of_decide_eq_true h⟩
  · exact decide_eq_true ((of_decide_eq_true h1).trans (of_decide_eq_true h2))
  · simpa using Int.le_total a.key b.key

/-- After 81 rows with the keys 0 to 40 and 0 to 39 a range of two keys has three positions. -/
theorem queries_of_run_sample : ∃ log isam, AddRun sortByKey log isam ∧
    ∃ res, Returns (isam.rangeSearch · 39 40) (.ok res) ∧ res.length = 3 := by
  obtain ⟨hload, hrun⟩ := queries_of_run sortByKey_spec
  let memory : Nat → Slots Int := fun _ => ⟨List.replicate 3 ⟨7, 7, 7⟩, rfl⟩
  let batch : List (Int × Int) := (List.range 81).map fun i => ((i : Int) % 41, (i : Int))
  obtain ⟨isam, hret⟩ := hload memory batch (by decide)
  have h : AddRun sortByKey batch isam := .load memory (by decide) hret
  obtain ⟨res, hres, hperm⟩ := (hrun batch isam h).2.2.1 39 40
  exact ⟨batch, isam, h, res, hres, hperm.length_eq.trans (by decide)⟩

end ISAM

end Rdbms
