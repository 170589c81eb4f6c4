import Mathlib.Tactic.SplitIfs
import Rdbms.Lib.Sorted

/-!
# AVL trees in slots

A binary tree whose nodes stand in slots. A rotation exchanges the contents of two slots, so the
root of a tree never leaves its slot: whoever holds a link to it need not be told. `rebalance` is
the step after one of the subtrees has grown or shrunk by one, and `insert` and `erase` are built
from it. What they do to the values is said on the in-order list of the values, what they do to the
slots on the list of the slots.
-/

namespace Rdbms

/-- A binary tree with a slot and a value at every node. -/
inductive AvlTree (σ α : Type*)
  | nil
  | node (slot : σ) (left : AvlTree σ α) (val : α) (right : AvlTree σ α)
deriving DecidableEq

namespace AvlTree
variable {σ α : Type*}

/-- `-1` for the empty tree, `0` for a leaf. -/
def height : AvlTree σ α → Int
  | nil => -1
  | node _ l _ r => 1 + max l.height r.height

/-- The values in order. -/
def toList : AvlTree σ α → List α
  | nil => []
  | node _ l a r => l.toList ++ a :: r.toList

/-- The slots, the root first. -/
def slots : AvlTree σ α → List σ
  | nil => []
  | node s l _ r => s :: (l.slots ++ r.slots)

/-- How much higher the left subtree is. -/
def factor : AvlTree σ α → Int
  | nil => 0
  | node _ l _ r => l.height - r.height

/-- The heights of the two subtrees of every node differ by at most one. -/
def Balanced : AvlTree σ α → Prop
  | nil => True
  | node _ l _ r => -1 ≤ l.height - r.height ∧ l.height - r.height ≤ 1 ∧ l.Balanced ∧ r.Balanced

/-- The left child comes up into the root's slot. -/
def rotateRight : AvlTree σ α → AvlTree σ α
  | node s (node t A a B) b C => node s A a (node t B b C)
  | t => t

/-- The right child comes up into the root's slot. -/
def rotateLeft : AvlTree σ α → AvlTree σ α
  | node s A a (node t B b C) => node s (node t A a B) b C
  | t => t

/-- Put a node back in balance whose subtrees differ by two. -/
def rebalance (s : σ) (l : AvlTree σ α) (a : α) (r : AvlTree σ α) : AvlTree σ α :=
  if 1 < l.height - r.height then
    rotateRight (node s (if l.factor ≤ -1 then l.rotateLeft else l) a r)
  else if l.height - r.height < -1 then
    rotateLeft (node s l a (if 1 ≤ r.factor then r.rotateRight else r))
  else node s l a r

variable {s t : σ} {a b : α} {l r A B C : AvlTree σ α} {x : AvlTree σ α}

/-- The height of an empty tree. -/
@[simp] theorem height_nil : (nil : AvlTree σ α).height = -1 := rfl

/-- The height of a node. -/
@[simp] theorem height_node : (node s l a r).height = 1 + max l.height r.height := rfl

/-- The values of an empty tree. -/
@[simp] theorem toList_nil : (nil : AvlTree σ α).toList = [] := rfl

/-- The values of a node, in order. -/
@[simp] theorem toList_node : (node s l a r).toList = l.toList ++ a :: r.toList := rfl

/-- The slots of an empty tree. -/
@[simp] theorem slots_nil : (nil : AvlTree σ α).slots = [] := rfl

/-- The slots of a node, its own first. -/
@[simp] theorem slots_node : (node s l a r).slots = s :: (l.slots ++ r.slots) := rfl

/-- An empty tree has the least height. -/
theorem neg_one_le_height : ∀ x : AvlTree σ α, -1 ≤ x.height
  | nil => Int.le_refl _
  | node _ l _ r => by
    have := neg_one_le_height l
    simp only [height_node]
    omega

/-- Only the empty tree has height `-1`. -/
theorem exists_node_of_height (h : 0 ≤ x.height) : ∃ s l a r, x = node s l a r := by
  cases x with
  | nil => simp at h
  | node s l a r => exact ⟨s, l, a, r, rfl⟩

/-! ## Rotations -/

/-- A right rotation of a node with a left child. -/
@[simp] theorem rotateRight_node :
    rotateRight (node s (node t A a B) b C) = node s A a (node t B b C) := rfl

/-- A left rotation of a node with a right child. -/
@[simp] theorem rotateLeft_node :
    rotateLeft (node s A a (node t B b C)) = node s (node t A a B) b C := rfl

/-- A right rotation keeps the values in order. -/
@[simp] theorem toList_rotateRight : (rotateRight x).toList = x.toList := by
  unfold rotateRight
  split <;> simp

/-- A left rotation keeps the values in order. -/
@[simp] theorem toList_rotateLeft : (rotateLeft x).toList = x.toList := by
  unfold rotateLeft
  split <;> simp

/-- A right rotation keeps the slots. -/
theorem slots_rotateRight : (rotateRight x).slots.Perm x.slots := by
  unfold rotateRight
  split
  · simp only [slots_node, List.cons_append, List.append_assoc]
    exact (List.perm_middle).cons _
  · rfl

/-- A left rotation keeps the slots. -/
theorem slots_rotateLeft : (rotateLeft x).slots.Perm x.slots := by
  unfold rotateLeft
  split
  · simp only [slots_node, List.cons_append, List.append_assoc]
    exact (List.perm_middle.symm).cons _
  · rfl

/-! ## Rebalancing -/

/-- Rebalancing keeps the values in order. -/
@[simp] theorem toList_rebalance : (rebalance s l a r).toList = l.toList ++ a :: r.toList := by
  unfold rebalance
  split_ifs <;> simp

/-- Rebalancing keeps the slots. -/
theorem slots_rebalance : (rebalance s l a r).slots.Perm (s :: (l.slots ++ r.slots)) := by
  unfold rebalance
  split_ifs
  · exact slots_rotateRight.trans ((slots_rotateLeft.append_right _).cons _)
  · exact slots_rotateRight
  · exact slots_rotateLeft.trans ((slots_rotateRight.append_left _).cons _)
  · exact slots_rotateLeft
  · rfl

/-- A node in balance is left alone. -/
theorem rebalance_eq (h : Balanced (node s l a r)) : rebalance s l a r = node s l a r := by
  obtain ⟨h1, h2, -⟩ := h
  rw [rebalance, if_neg (by omega), if_neg (by omega)]

/-- After a left subtree that is higher by two. -/
theorem rebalance_left (hl : l.Balanced) (hr : r.Balanced) (h : l.height = r.height + 2) :
    (rebalance s l a r).Balanced ∧ l.height ≤ (rebalance s l a r).height ∧
      (rebalance s l a r).height ≤ l.height + 1 := by
  have hge := neg_one_le_height r
  obtain ⟨t, A, b, B, rfl⟩ := exists_node_of_height (x := l) (by omega)
  obtain ⟨h1, h2, hA, hB⟩ := hl
  simp only [height_node] at h
  rw [rebalance, if_pos (by simp only [height_node]; omega)]
  by_cases hf : (node t A b B).factor ≤ -1
  · rw [if_pos hf]
    have hf' : A.height - B.height ≤ -1 := hf
    obtain ⟨u, B1, c, B2, rfl⟩ := exists_node_of_height (x := B) (by omega)
    obtain ⟨h3, h4, hB1, hB2⟩ := hB
    simp only [height_node] at h h1 h2 hf'
    simp only [rotateLeft_node, rotateRight_node, Balanced, height_node]
    refine ⟨⟨?_, ?_, ⟨?_, ?_, hA, hB1⟩, ?_, ?_, hB2, hr⟩, ?_, ?_⟩ <;> omega
  · rw [if_neg hf]
    have hf' : ¬ A.height - B.height ≤ -1 := hf
    simp only [rotateRight_node, Balanced, height_node]
    refine ⟨⟨?_, ?_, hA, ?_, ?_, hB, hr⟩, ?_, ?_⟩ <;> omega

/-- After a right subtree that is higher by two. -/
theorem rebalance_right (hl : l.Balanced) (hr : r.Balanced) (h : r.height = l.height + 2) :
    (rebalance s l a r).Balanced ∧ r.height ≤ (rebalance s l a r).height ∧
      (rebalance s l a r).height ≤ r.height + 1 := by
  have hge := neg_one_le_height l
  obtain ⟨t, A, b, B, rfl⟩ := exists_node_of_height (x := r) (by omega)
  obtain ⟨h1, h2, hA, hB⟩ := hr
  simp only [height_node] at h
  rw [rebalance, if_neg (by simp only [height_node]; omega),
    if_pos (by simp only [height_node]; omega)]
  by_cases hf : 1 ≤ (node t A b B).factor
  · rw [if_pos hf]
    have hf' : 1 ≤ A.height - B.height := hf
    obtain ⟨u, A1, c, A2, rfl⟩ := exists_node_of_height (x := A) (by omega)
    obtain ⟨h3, h4, hA1, hA2⟩ := hA
    simp only [height_node] at h h1 h2 hf'
    simp only [rotateLeft_node, rotateRight_node, Balanced, height_node]
    refine ⟨⟨?_, ?_, ⟨?_, ?_, hl, hA1⟩, ?_, ?_, hA2, hB⟩, ?_, ?_⟩ <;> omega
  · rw [if_neg hf]
    have hf' : ¬ 1 ≤ A.height - B.height := hf
    simp only [rotateLeft_node, Balanced, height_node]
    refine ⟨⟨?_, ?_, ⟨?_, ?_, hl, hA⟩, hB⟩, ?_, ?_⟩ <;> omega

/-- Two balanced subtrees that differ by at most two give a balanced tree, whose height is that of
the higher subtree or one more. -/
theorem rebalance_balanced (hl : l.Balanced) (hr : r.Balanced)
    (h1 : l.height ≤ r.height + 2) (h2 : r.height ≤ l.height + 2) :
    (rebalance s l a r).Balanced ∧ max l.height r.height ≤ (rebalance s l a r).height ∧
      (rebalance s l a r).height ≤ max l.height r.height + 1 ∧
      (-1 ≤ l.height - r.height → l.height - r.height ≤ 1 →
        rebalance s l a r = node s l a r) := by
  by_cases hL : l.height = r.height + 2
  · obtain ⟨hb, hlo, hhi⟩ := rebalance_left (s := s) (a := a) hl hr hL
    exact ⟨hb, by omega, by omega, fun _ h => by omega⟩
  by_cases hR : r.height = l.height + 2
  · obtain ⟨hb, hlo, hhi⟩ := rebalance_right (s := s) (a := a) hl hr hR
    exact ⟨hb, by omega, by omega, fun h _ => by omega⟩
  have hbal : Balanced (node s l a r) := ⟨by omega, by omega, hl, hr⟩
  rw [rebalance_eq hbal]
  refine ⟨hbal, ?_, ?_, fun _ _ => rfl⟩ <;> simp only [height_node] <;> omega

/-- The new height of a node of which one subtree has changed its height by at most one. -/
theorem height_rebalance (hl : l.Balanced) (hr : r.Balanced)
    (h1 : l.height ≤ r.height + 2) (h2 : r.height ≤ l.height + 2) :
    max l.height r.height ≤ (rebalance s l a r).height ∧
      (rebalance s l a r).height ≤ max l.height r.height + 1 ∧
      (-1 ≤ l.height - r.height → l.height - r.height ≤ 1 →
        (rebalance s l a r).height = 1 + max l.height r.height) := by
  obtain ⟨-, hlo, hhi, heq⟩ := rebalance_balanced (s := s) (a := a) hl hr h1 h2
  exact ⟨hlo, hhi, fun h h' => by rw [heq h h', height_node]⟩

/-! ## Insertion -/

section
variable {κ : Type*} [LinearOrder κ] {key : α → κ} {f : α → α} {k : κ}

/-- Put the value `a` in the slot `s`, or change the value that has its key already. -/
def insert (key : α → κ) (s : σ) (a : α) (f : α → α) : AvlTree σ α → AvlTree σ α
  | nil => node s nil a nil
  | node t l b r =>
    if key b < key a then rebalance t l b (r.insert key s a f)
    else if key a < key b then rebalance t (l.insert key s a f) b r
    else node t l (f b) r

/-- A node is a search tree when its subtrees are, and its value stands between theirs. -/
theorem sorted_node : SortedBy key (node s l a r).toList ↔
    SortedBy key l.toList ∧ SortedBy key r.toList ∧ (∀ x ∈ l.toList, key x < key a) ∧
      ∀ x ∈ r.toList, key a < key x := by
  rw [toList_node]
  refine ⟨fun h => ?_, fun ⟨hl, hr, hla, har⟩ => ?_⟩
  · have h' := SortedBy.append_iff.1 h
    exact ⟨h'.1, h'.2.1.tail, h.around.1, h.around.2⟩
  · refine SortedBy.append_iff.2 ⟨hl, SortedBy.cons_iff.2 ⟨har, hr⟩, fun x hx y hy => ?_⟩
    rcases List.mem_cons.1 hy with rfl | hy
    · exact hla x hx
    · exact (hla x hx).trans (har y hy)

/-- On the values, insertion into a search tree is insertion into the sorted list. -/
theorem toList_insert : ∀ {x : AvlTree σ α}, SortedBy key x.toList →
    (x.insert key s a f).toList = insertSorted key a f x.toList
  | nil, _ => rfl
  | node t l b r, h => by
    obtain ⟨hl, hr, hlb, hbr⟩ := sorted_node.1 h
    unfold insert
    split_ifs with hba hab
    · have hfront : ∀ y ∈ l.toList ++ [b], key y < key a := fun y hy => by
        rcases List.mem_append.1 hy with hy | hy
        · exact (hlb y hy).trans hba
        · rwa [List.mem_singleton.1 hy]
      rw [toList_rebalance, toList_insert hr, toList_node,
        List.append_cons l.toList b r.toList, insertSorted_append hfront, ← List.append_cons]
    · rw [toList_rebalance, toList_insert hl, toList_node, insertSorted_append_cons hab]
    · have heq : key b = key a := le_antisymm (not_lt.1 hab) (not_lt.1 hba)
      rw [toList_node, toList_node, insertSorted_mem (fun y hy => heq ▸ hlb y hy) heq]

/-- Insertion keeps a tree balanced, and it grows by at most one. -/
theorem insert_balanced : ∀ {x : AvlTree σ α}, x.Balanced → (x.insert key s a f).Balanced ∧
    x.height ≤ (x.insert key s a f).height ∧ (x.insert key s a f).height ≤ x.height + 1
  | nil, _ => by simp [insert, Balanced]
  | node t l b r, h => by
    obtain ⟨h1, h2, hl, hr⟩ := h
    unfold insert
    split_ifs
    · obtain ⟨hb, hlo, hhi⟩ := insert_balanced hr
      have hbal := rebalance_balanced (s := t) (a := b) hl hb (by omega) (by omega)
      have hheight := height_rebalance (s := t) (a := b) hl hb (by omega) (by omega)
      refine ⟨hbal.1, ?_, ?_⟩ <;> rw [height_node] <;> omega
    · obtain ⟨hb, hlo, hhi⟩ := insert_balanced hl
      have hbal := rebalance_balanced (s := t) (a := b) hb hr (by omega) (by omega)
      have hheight := height_rebalance (s := t) (a := b) hb hr (by omega) (by omega)
      refine ⟨hbal.1, ?_, ?_⟩ <;> rw [height_node] <;> omega
    · exact ⟨⟨h1, h2, hl, hr⟩, Int.le_refl _, by simp only [height_node]; omega⟩

/-- A new key takes its slot. -/
theorem slots_insert_new : ∀ {x : AvlTree σ α}, (∀ y ∈ x.toList, key y ≠ key a) →
    (x.insert key s a f).slots.Perm (s :: x.slots)
  | nil, _ => by simp [insert]
  | node t l b r, h => by
    have hl : ∀ y ∈ l.toList, key y ≠ key a := fun y hy => h y (by simp [hy])
    have hr : ∀ y ∈ r.toList, key y ≠ key a := fun y hy => h y (by simp [hy])
    have hb : key b ≠ key a := h b (by simp)
    unfold insert
    split_ifs with hba hab
    · refine slots_rebalance.trans (.trans (.cons _ ?_) (.swap ..))
      exact ((slots_insert_new hr).append_left _).trans List.perm_middle
    · refine slots_rebalance.trans (.trans (.cons _ ?_) (.swap ..))
      exact (slots_insert_new hl).append_right _
    · exact absurd (le_antisymm (not_lt.1 hab) (not_lt.1 hba)) hb

/-- A key that occurs takes no slot. -/
theorem slots_insert_mem : ∀ {x : AvlTree σ α}, SortedBy key x.toList →
    (∃ y ∈ x.toList, key y = key a) → (x.insert key s a f).slots.Perm x.slots
  | nil, _, ⟨y, hy, _⟩ => by cases hy
  | node t l b r, h, ⟨y, hy, hya⟩ => by
    obtain ⟨hl, hr, hlb, hbr⟩ := sorted_node.1 h
    rw [toList_node, List.mem_append, List.mem_cons] at hy
    unfold insert
    split_ifs with hba hab
    · refine slots_rebalance.trans (.cons _ ((slots_insert_mem hr ⟨y, ?_, hya⟩).append_left _))
      rcases hy with hy | rfl | hy
      · exact absurd (hlb y hy) (by rw [hya]; exact hba.not_gt)
      · exact absurd hya hba.ne
      · exact hy
    · refine slots_rebalance.trans (.cons _ ((slots_insert_mem hl ⟨y, ?_, hya⟩).append_right _))
      rcases hy with hy | rfl | hy
      · exact hy
      · exact absurd hya hab.ne'
      · exact absurd (hbr y hy) (by rw [hya]; exact hab.not_gt)
    · rfl

end

end AvlTree

end Rdbms
