import Mathlib.Order.Bounds.Defs
import Rdbms.Lib.AvlHeight
import Rdbms.Avl.Run

/-!
# The positions that an index holds

What a run of `add` and `remove` calls says about the keys is a list in key order, in which a key has
the position of the first `add` since it was last removed (`Op.positions`). The node-level `search`
and the traversal for a range read exactly this list out of the file (`reads_positions_of_run`).

A freed slot is used before the file grows. So the file has as many slots as there have been keys in
it at one time (`length_nodes_of_run`).
-/

namespace Rdbms

namespace Op
variable {κ : Type} [LinearOrder κ] {log : List (Op κ)} {op : Op κ}

/-- A call on the keys and their positions. A key that is there keeps its position. -/
def apply (m : List (κ × Int)) : Op κ → List (κ × Int)
  | add data rawPos => insertSorted (·.1) (data, rawPos) id m
  | remove item => m.filter (·.1 ≠ item)

/-- The keys after a sequence of calls, in order, each with its position. -/
def positions (log : List (Op κ)) : List (κ × Int) := log.foldl apply []

/-- The last call of a run is applied to what is in front. -/
theorem positions_append : positions (log ++ [op]) = apply (positions log) op := by
  rw [positions, List.foldl_append]
  rfl

/-- The numbers of keys that there have been. -/
def sizes (log : List (Op κ)) : Set Nat := { n | ∃ l, l <+: log ∧ (positions l).length = n }

/-- A run has the sizes that it had, and the one after its last call. -/
theorem mem_sizes_append {n : Nat} :
    n ∈ sizes (log ++ [op]) ↔ n = (apply (positions log) op).length ∨ n ∈ sizes log := by
  rw [← positions_append]
  constructor
  · rintro ⟨l, hl, rfl⟩
    rcases List.prefix_concat_iff.1 hl with rfl | hl
    · exact .inl rfl
    · exact .inr ⟨l, hl, rfl⟩
  · rintro (rfl | ⟨l, hl, rfl⟩)
    · exact ⟨_, List.prefix_rfl, rfl⟩
    · exact ⟨l, hl.trans (List.prefix_append ..), rfl⟩

/-- One call more. -/
theorem isGreatest_sizes_append {m n : Nat} (h : IsGreatest (sizes log) m)
    (hn : n = max m (apply (positions log) op).length) : IsGreatest (sizes (log ++ [op])) n := by
  subst hn
  refine ⟨mem_sizes_append.2 ?_, fun x hx => ?_⟩
  · rcases max_choice m (apply (positions log) op).length with hmax | hmax
    · exact .inr (by rw [hmax]; exact h.1)
    · exact .inl hmax
  · rcases mem_sizes_append.1 hx with rfl | hx
    · exact le_max_right ..
    · exact (h.2 hx).trans (le_max_left ..)

end Op

namespace AVLIndex
variable {κ : Type} [KeyType κ] {si : AVLIndex κ} {t : AvlTree Int (Record κ)} {F : List Int}
  {log : List (Op κ)} {k : κ}

/-- The key and the position of a record. -/
def place (r : Record κ) : κ × Int := (r.data, r.rawPos)

/-- The file has a slot for each node of the tree and each freed node. -/
theorem WellFormed.length_nodes (h : si.WellFormed t F) :
    si.nodes.length = t.toList.length + F.length := by
  have hlen := h.slots.length_eq
  rw [List.length_append, AvlTree.length_slots, fileSlots, List.length_map, List.length_range] at hlen
  exact hlen.symm

/-- `remove` keeps the length of the file. -/
theorem WellFormed.remove_nodes (h : si.WellFormed t F) (hk : ¬ si.AtThinRoot k) :
    ∃ pos si' t' F', Returns (si.remove · k) (.ok pos, si') ∧ si'.WellFormed t' F' ∧
      si'.pk = si.pk ∧ t'.toList = t.toList.filter (·.data ≠ k) ∧
      si'.nodes.length = si.nodes.length := by
  obtain ⟨pos, si', t', F', hret, hwf, hpk, hlist⟩ := h.remove hk
  refine ⟨pos, si', t', F', hret, hwf, hpk, hlist, ?_⟩
  by_cases hmem : k ∈ t.toList.map (·.data)
  · obtain ⟨m, x, n, si'', t'', herase, he⟩ := h.erases hmem hk
    cases hret.unique (remove_returns herase)
    exact he.cut.rewrites.length
  · obtain ⟨pos', hret'⟩ := h.remove_absent hmem
    cases hret.unique hret'
    rfl

/-- The file holds what the calls say, in as many slots as there have been keys at one time. -/
structure HoldsPositions (si : AVLIndex κ) (log : List (Op κ)) (t : AvlTree Int (Record κ))
    (F : List Int) : Prop where
  pk : si.pk = false
  wellFormed : si.WellFormed t F
  positions : t.toList.map place = Op.positions log
  length_nodes : IsGreatest (Op.sizes log) si.nodes.length

namespace HoldsPositions

/-- A new index holds nothing. -/
theorem start : (initIndex false : AVLIndex κ).HoldsPositions [] .nil [] where
  pk := rfl
  wellFormed := .initIndex false
  positions := rfl
  length_nodes := by
    refine ⟨⟨[], List.prefix_rfl, rfl⟩, ?_⟩
    rintro n ⟨l, hl, rfl⟩
    rw [List.prefix_nil.1 hl]
    exact le_rfl

/-- The tree has a node for each key with a position. -/
theorem length_positions (h : si.HoldsPositions log t F) :
    t.toList.length = (Op.positions log).length := by
  rw [← h.positions, List.length_map]

/-- `add` keeps the positions of the run. -/
theorem add (h : si.HoldsPositions log t F) (k : κ) (v : Int) :
    ∃ si' t' F', Returns (si.add · k v) (.ok [v], si') ∧
      si'.HoldsPositions (log ++ [.add k v]) t' F' := by
  obtain ⟨si', t', F', hret, hadd⟩ := h.wellFormed.add h.pk k v
  have hpos : t'.toList.map place = Op.positions (log ++ [.add k v]) := by
    have hkey : ∀ r : Record κ, (place r).1 = r.data := fun _ => rfl
    have hplace : ∀ r, place (si.pointDuplicate r) = id (place r) := fun _ => rfl
    rw [hadd.toList, Op.positions_append, ← h.positions, map_insertSorted hkey hplace]
    rfl
  refine ⟨si', t', F', hret, hadd.pk.trans h.pk, hadd.wellFormed, hpos,
    Op.isGreatest_sizes_append h.length_nodes ?_⟩
  rw [← Op.positions_append, ← hpos, List.length_map]
  have hlen := h.wellFormed.length_nodes
  have hlen' := hadd.wellFormed.length_nodes
  by_cases hk : ∃ y ∈ t.toList, y.data = k
  · obtain ⟨rfl, hsame⟩ := hadd.old hk
    omega
  · obtain ⟨rfl, -, hgrow⟩ := hadd.new fun y hy hyk => hk ⟨y, hy, hyk⟩
    cases F with
    | nil =>
      rw [if_pos rfl] at hgrow
      simp only [List.tail_nil, List.length_nil] at hlen hlen'
      omega
    | cons s F =>
      rw [if_neg (List.cons_ne_nil s F)] at hgrow
      omega

/-- So does `remove`, but for a key at a thin root. -/
theorem remove (h : si.HoldsPositions log t F) (hk : ¬ si.AtThinRoot k) :
    ∃ pos si' t' F', Returns (si.remove · k) (.ok pos, si') ∧
      si'.HoldsPositions (log ++ [.remove k]) t' F' := by
  obtain ⟨pos, si', t', F', hret, hwf, hpk, hlist, hsame⟩ := h.wellFormed.remove_nodes hk
  have hpos : t'.toList.map place = Op.positions (log ++ [.remove k]) := by
    rw [hlist, Op.positions_append, ← h.positions, Op.apply, List.filter_map]
    rfl
  refine ⟨pos, si', t', F', hret, hpk.trans h.pk, hwf, hpos,
    Op.isGreatest_sizes_append h.length_nodes ?_⟩
  rw [← Op.positions_append, ← hpos, List.length_map]
  have hlen' := hwf.length_nodes
  omega

/-- The node-level `search` of a key that is there. -/
theorem searchNode_mem (h : si.HoldsPositions log t F) {v : Int} (hv : (k, v) ∈ Op.positions log) :
    ∃ n, Returns (si.searchNode · si.header.rootPointer k) (.ok n) ∧ n.data = k ∧ n.rawPos = v := by
  rw [← h.positions] at hv
  obtain ⟨y, hy, hyk⟩ := List.mem_map.1 hv
  obtain ⟨rfl, rfl⟩ := Prod.mk.inj hyk
  obtain ⟨n, hret, rfl⟩ :=
    (searchNode_returns h.wellFormed.rep h.wellFormed.sorted).1 y hy rfl
  exact ⟨n, hret, rfl, rfl⟩

/-- The node-level `search` of any other key. -/
theorem searchNode_absent (h : si.HoldsPositions log t F)
    (hk : k ∉ (Op.positions log).map (·.1)) :
    Returns (si.searchNode · si.header.rootPointer k)
      (.error (.runtimeError "No se ha encontrado el elemento!")) := by
  refine (searchNode_returns h.wellFormed.rep h.wellFormed.sorted).2 fun y hy hyk => hk ?_
  rw [← h.positions, List.map_map]
  exact List.mem_map.2 ⟨y, hy, hyk⟩

/-- The traversal for a range. -/
theorem visitsNodes (h : si.HoldsPositions log t F) (first last : κ) :
    ∃ ns, si.VisitsNodes first last ns ∧ ns.map (place ·.toRecord) =
      (Op.positions log).filter fun x => first ≤ x.1 ∧ x.1 ≤ last := by
  obtain ⟨t', hlinked, rfl⟩ := h.wellFormed.rep.linked
  have hsorted := h.wellFormed.sorted
  rw [AvlTree.toList_map] at hsorted
  refine ⟨_, hlinked.visitsNodes (SortedBy.congr_map (by simp) hsorted) first last, ?_⟩
  rw [← h.positions, AvlTree.toList_map, List.map_map, List.filter_map]
  rfl

end HoldsPositions

/-- After every run the index holds the positions of the run. -/
theorem OpRun.holdsPositions (h : OpRun (¬ AtThinRoot · ·) log si) :
    ∃ t F, si.HoldsPositions log t F := by
  induction h with
  | start => exact ⟨.nil, [], .start⟩
  | add _ hret ih =>
    obtain ⟨t, F, h⟩ := ih
    obtain ⟨si', t', F', hret', h'⟩ := h.add _ _
    cases hret.unique hret'
    exact ⟨t', F', h'⟩
  | remove _ hk hret ih =>
    obtain ⟨t, F, h⟩ := ih
    obtain ⟨pos, si', t', F', hret', h'⟩ := h.remove hk
    cases hret.unique hret'
    exact ⟨t', F', h'⟩

/-- After every run that does not remove the key of a root with fewer than two children: the
node-level `search` of a key comes back with the node of its position, or with the error when the key
is not there, and the traversal for a range visits the keys of the range in order, each once and with
its position. -/
theorem reads_positions_of_run (h : OpRun (¬ AtThinRoot · ·) log si) :
    (∀ x ∈ Op.positions log, ∃ n, Returns (si.searchNode · si.header.rootPointer x.1) (.ok n) ∧
      n.data = x.1 ∧ n.rawPos = x.2) ∧
    (∀ k, k ∉ (Op.positions log).map (·.1) → Returns (si.searchNode · si.header.rootPointer k)
      (.error (.runtimeError "No se ha encontrado el elemento!"))) ∧
    ∀ first last, ∃ ns, si.VisitsNodes first last ns ∧ ns.map (place ·.toRecord) =
      (Op.positions log).filter fun x => first ≤ x.1 ∧ x.1 ≤ last := by
  obtain ⟨t, F, hholds⟩ := h.holdsPositions
  exact ⟨fun x hx => hholds.searchNode_mem hx, fun k hk => hholds.searchNode_absent hk,
    hholds.visitsNodes⟩

/-- A leaf is removed, and a key is added again. -/
theorem reads_positions_of_run_sample : ∃ si : AVLIndex Int,
    OpRun (¬ AtThinRoot · ·) [.add 5 1, .add 3 2, .remove 3, .add 5 9] si ∧
      Op.positions [Op.add (5 : Int) 1, .add 3 2, .remove 3, .add 5 9] = [(5, 1)] ∧
      ∃ n, Returns (si.searchNode · si.header.rootPointer 5) (.ok n) ∧ n.data = 5 ∧ n.rawPos = 1 := by
  have r1 : OpRun (¬ AtThinRoot · ·) [Op.add (5 : Int) 1] _ := .add .start (.of_add 5 fun _ => rfl)
  have r2 := r1.add (k := 3) (v := 2) (.of_add 5 fun _ => rfl)
  have r3 := r2.remove (k := 3) (by rintro ⟨n, hn, hk, -⟩; cases hn; cases hk)
    (.of_add 5 fun _ => rfl)
  have r4 := r3.add (k := 5) (v := 9) (.of_add 5 fun _ => rfl)
  exact ⟨_, r4, by decide, (reads_positions_of_run r4).1 (5, 1) (by decide)⟩

/-- After every such run, the file has as many slots as there have been keys at one time. -/
theorem length_nodes_of_run (h : OpRun (¬ AtThinRoot · ·) log si) :
    IsGreatest (Op.sizes log) si.nodes.length := by
  obtain ⟨t, F, hholds⟩ := h.holdsPositions
  exact hholds.length_nodes

/-- The slot of a removed key is used again. -/
theorem length_nodes_of_run_sample : ∃ si : AVLIndex Int,
    OpRun (¬ AtThinRoot · ·) [.add 5 1, .add 3 2, .remove 3, .add 7 3] si ∧
      IsGreatest (Op.sizes [Op.add (5 : Int) 1, .add 3 2, .remove 3, .add 7 3]) si.nodes.length := by
  have r1 : OpRun (¬ AtThinRoot · ·) [Op.add (5 : Int) 1] _ := .add .start (.of_add 5 fun _ => rfl)
  have r2 := r1.add (k := 3) (v := 2) (.of_add 5 fun _ => rfl)
  have r3 := r2.remove (k := 3) (by rintro ⟨n, hn, hk, -⟩; cases hn; cases hk)
    (.of_add 5 fun _ => rfl)
  have r4 := r3.add (k := 7) (v := 3) (.of_add 5 fun _ => rfl)
  exact ⟨_, r4, length_nodes_of_run r4⟩

end AVLIndex

end Rdbms
