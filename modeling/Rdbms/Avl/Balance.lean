import Rdbms.Avl.Remove

/-!
# The rebalancing step

`balance` of a slot whose two subtrees are balanced search trees that differ by two in height. It
leaves a balanced tree with the same values in the same slots, and the same root
(`balance_rebalances`). What the node in the slot says about its own height and position does not
matter. That the slots are pairwise different follows: a search tree has no value twice, and no node
is in one of its own subtrees.
-/

namespace Rdbms

namespace AVLIndex
variable {κ : Type} {si : AVLIndex κ} {p q : Int} {n : AVLIndexNode κ} {b : Record κ}
  {t l r : AvlTree Int (Record κ)}

/-- The values of a tree are those that its slots hold. -/
theorem Rep.slots_toList : ∀ {t : AvlTree Int (Record κ)} {p : Int}, si.Rep p t →
    (t.slots.map fun s => (si.read s).map (·.toRecord)).Perm (t.toList.map some)
  | .nil, _, _ => .nil
  | .node s l b r, p, ⟨hp, n, hn, hb, _, _, hl, hr⟩ => by
    have hroot : (si.read s).map (·.toRecord) = some b := by rw [← hp, hn, Option.map_some, hb]
    rw [AvlTree.slots_node, AvlTree.toList_node, List.map_cons, List.map_append, List.map_append,
      List.map_cons, hroot]
    exact ((hl.slots_toList.append hr.slots_toList).cons _).trans List.perm_middle.symm

variable [KeyType κ]

/-- A search tree in the file has pairwise different slots. -/
theorem Rep.nodup_slots (h : si.Rep p t) (hs : SortedBy (·.data) t.toList) : t.slots.Nodup :=
  (h.slots_toList.nodup_iff.2 (hs.nodup.map (Option.some_injective _))).of_map _

omit [KeyType κ] in
/-- The subtrees of a node of the tree are smaller than the tree. -/
theorem Rep.subtrees_of_mem (h : si.Rep q t) (hmem : p ∈ t.slots) (hn : si.read p = some n) :
    ∃ l r, si.Rep n.leftChildren l ∧ si.Rep n.rightChildren r ∧
      l.slots.length < t.slots.length ∧ r.slots.length < t.slots.length := by
  obtain ⟨l, a, r, hsub⟩ := AvlTree.exists_sub_of_mem hmem
  obtain ⟨-, n', hn', -, -, -, hl, hr⟩ := h.sub hsub
  obtain rfl := Option.some.inj (hn.symm.trans hn')
  have hlen := hsub.sublist_slots.length_le
  rw [AvlTree.slots_node, List.length_cons, List.length_append] at hlen
  exact ⟨l, r, hl, hr, by omega, by omega⟩

omit [KeyType κ] in
/-- No node is in one of its own subtrees. -/
theorem Stale.not_mem (h : si.Stale p l b r) : p ∉ l.slots ∧ p ∉ r.slots := by
  obtain ⟨n, hn, -, hl, hr⟩ := h
  constructor
  · intro hmem
    obtain ⟨l', r', hl', -, hlt, -⟩ := hl.subtrees_of_mem hmem hn
    rw [hl.unique hl'] at hlt
    exact lt_irrefl _ hlt
  · intro hmem
    obtain ⟨l', r', -, hr', -, hlt⟩ := hr.subtrees_of_mem hmem hn
    rw [hr.unique hr'] at hlt
    exact lt_irrefl _ hlt

/-- `balance` of a slot whose subtrees are balanced search trees without a common slot, one of them
higher by two: a balanced tree with its root in the same slot, in the same slots, with the same
values in order and as high as the higher subtree or higher by one. No other slot is written. -/
theorem balance_rebalances (h : si.Stale p l b r) (hsl : SortedBy (·.data) l.toList)
    (hsr : SortedBy (·.data) r.toList) (hdisj : l.slots.Disjoint r.slots) (hl : l.Balanced)
    (hr : r.Balanced) (hh : l.height - r.height = 2 ∨ r.height - l.height = 2) :
    ∃ si' t, si.balance p = some si' ∧ si'.Rep p t ∧
      (∀ q, q ∈ t.slots ↔ q = p ∨ q ∈ l.slots ∨ q ∈ r.slots) ∧ t.slots.Nodup ∧
      t.toList = l.toList ++ b :: r.toList ∧ t.Balanced ∧
      (t.height = max l.height r.height ∨ t.height = max l.height r.height + 1) ∧
      Rewrites (p :: (l.slots ++ r.slots)) si si' := by
  have hnd : (p :: (l.slots ++ r.slots)).Nodup := by
    obtain ⟨n, hn, -, hrl, hrr⟩ := id h
    refine List.nodup_cons.2 ⟨fun hmem => ?_, (hrl.nodup_slots hsl).append (hrr.nodup_slots hsr) hdisj⟩
    rcases List.mem_append.1 hmem with hmem | hmem
    · exact h.not_mem.1 hmem
    · exact h.not_mem.2 hmem
  obtain ⟨si', hbalance, hre, hrep⟩ := h.balance hnd (by omega)
  obtain ⟨hbalanced, hlo, hhi, -⟩ :=
    AvlTree.rebalance_balanced (s := p) (a := b) hl hr (by omega) (by omega)
  have hslots : (AvlTree.rebalance p l b r).slots.Perm (p :: (l.slots ++ r.slots)) :=
    AvlTree.slots_rebalance
  refine ⟨si', _, hbalance, hrep, fun q => ?_, hslots.nodup_iff.2 hnd, AvlTree.toList_rebalance,
    hbalanced, by omega, hre⟩
  rw [hslots.mem_iff, List.mem_cons, List.mem_append]

/-- A root that is heavy on the left, with a child that is heavy on the right. Its height and its
position are wrong in the file. -/
theorem balance_rebalances_sample : ∃ si si' : AVLIndex Int, ∃ t,
    si.balance 32 = some si' ∧ si'.Rep 32 t ∧
    t.toList = [⟨3, 64, -1⟩, ⟨4, 128, -1⟩, ⟨5, 0, -1⟩] ∧ t.Balanced := by
  let si : AVLIndex Int :=
    { pk := false, header := ⟨32, -1⟩, fileHeader := ⟨32, -1⟩, duplicatesFile := []
      nodes := [⟨⟨5, 0, -1⟩, 0, 152, -1, -1, 7⟩, ⟨⟨3, 64, -1⟩, 152, -1, 272, -1, 1⟩,
        ⟨⟨4, 128, -1⟩, 272, -1, -1, -1, 0⟩] }
  have hstale : si.Stale 32 (.node 152 .nil ⟨3, 64, -1⟩ (.node 272 .nil ⟨4, 128, -1⟩ .nil))
      ⟨5, 0, -1⟩ .nil :=
    ⟨_, rfl, rfl, ⟨rfl, _, rfl, rfl, rfl, rfl, rfl, rfl, _, rfl, rfl, rfl, rfl, rfl, rfl⟩, rfl⟩
  obtain ⟨si', t, hbalance, hrep, -, -, htoList, hbalanced, -⟩ :=
    balance_rebalances hstale (by simp [SortedBy]) .nil (by simp) (by simp [AvlTree.Balanced])
      trivial (by simp)
  exact ⟨si, si', t, hbalance, hrep, htoList, hbalanced⟩

end AVLIndex

end Rdbms
