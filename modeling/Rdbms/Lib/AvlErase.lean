import Mathlib.Data.List.Perm.Basic
import Rdbms.Lib.AvlTree

/-!
# Deletion from AVL trees in slots

A node with at most one child (`Thin`) is taken out of a tree by `erase`, and the nodes on the way
to it are put back in balance. A node with two children keeps its place: its predecessor, which is
thin, is taken out and its value moves up. Both take one value off the in-order list
(`toList_erase`, `toList_erase_replace`). A subtree that is worked on stays a subtree (`Sub.erase`):
a rotation above it lifts the other side.
-/

namespace Rdbms

namespace AvlTree
variable {σ α κ : Type*} [LinearOrder κ] {key : α → κ} {k : κ} {s : σ} {a b m : α}
  {l r x y : AvlTree σ α}

/-- The tree that remains of two of which one is empty. -/
def join : AvlTree σ α → AvlTree σ α → AvlTree σ α
  | nil, r => r
  | l, _ => l

/-- Take out the node of the key `k`, which has at most one child. -/
def erase (key : α → κ) (k : κ) : AvlTree σ α → AvlTree σ α
  | nil => nil
  | node s l b r =>
    if key b < k then rebalance s l b (r.erase key k)
    else if k < key b then rebalance s (l.erase key k) b r
    else l.join r

/-- The node of the key `k` has at most one child. -/
def Thin (key : α → κ) (k : κ) : AvlTree σ α → Prop
  | nil => True
  | node _ l b r =>
    if key b < k then r.Thin key k else if k < key b then l.Thin key k else l = nil ∨ r = nil

/-- A larger key is erased on the right. -/
theorem erase_of_lt (h : key b < k) :
    (node s l b r).erase key k = rebalance s l b (r.erase key k) := if_pos h

/-- A smaller key is erased on the left. -/
theorem erase_of_gt (h : k < key b) :
    (node s l b r).erase key k = rebalance s (l.erase key k) b r := by
  rw [erase, if_neg h.not_gt, if_pos h]

/-- The node of the key is cut out, and its children are joined. -/
theorem erase_of_eq (h : key b = k) : (node s l b r).erase key k = l.join r := by
  rw [erase, if_neg h.not_lt, if_neg h.not_gt]

/-- Joined with an empty tree on the left. -/
@[simp] theorem nil_join : (nil : AvlTree σ α).join r = r := rfl

/-- Joined with an empty tree on the right. -/
@[simp] theorem join_nil : l.join nil = l := by cases l <;> rfl

/-- A larger key is looked for on the right. -/
theorem thin_of_lt (h : key b < k) : (node s l b r).Thin key k ↔ r.Thin key k := by
  rw [Thin, if_pos h]

/-- A smaller key is looked for on the left. -/
theorem thin_of_gt (h : k < key b) : (node s l b r).Thin key k ↔ l.Thin key k := by
  rw [Thin, if_neg h.not_gt, if_pos h]

/-- The node of the key is thin when it lacks a child. -/
theorem thin_of_eq (h : key b = k) : (node s l b r).Thin key k ↔ l = nil ∨ r = nil := by
  rw [Thin, if_neg h.not_lt, if_neg h.not_gt]

/-! ## The values -/

/-- Values with smaller keys all stay. -/
theorem filter_key_of_lt {xs : List α} (h : ∀ y ∈ xs, key y < k) :
    xs.filter (key · ≠ k) = xs :=
  List.filter_eq_self.2 fun y hy => by simpa using (h y hy).ne

/-- Values with larger keys all stay. -/
theorem filter_key_of_gt {xs : List α} (h : ∀ y ∈ xs, k < key y) :
    xs.filter (key · ≠ k) = xs :=
  List.filter_eq_self.2 fun y hy => by simpa using (h y hy).ne'

/-- A key is taken out of a sorted list where it stands. -/
theorem filter_key_middle {xs ys : List α} (h : SortedBy key (xs ++ b :: ys)) (hb : key b = k) :
    (xs ++ b :: ys).filter (key · ≠ k) = xs ++ ys := by
  subst hb
  obtain ⟨h1, h2⟩ := h.around
  rw [List.filter_append, List.filter_cons, filter_key_of_lt h1, filter_key_of_gt h2]
  simp

/-- Erasing the key of a thin node takes its value out and leaves the order of the others. -/
theorem toList_erase : ∀ {x : AvlTree σ α}, SortedBy key x.toList → x.Thin key k →
    (x.erase key k).toList = x.toList.filter (key · ≠ k)
  | nil, _, _ => rfl
  | node s l b r, h, hthin => by
    obtain ⟨hl, hr, hlb, hbr⟩ := sorted_node.1 h
    rw [toList_node, List.filter_append, List.filter_cons]
    rcases lt_trichotomy (key b) k with hlt | heq | hgt
    · rw [erase_of_lt hlt, toList_rebalance, toList_erase hr ((thin_of_lt hlt).1 hthin),
        filter_key_of_lt fun y hy => (hlb y hy).trans hlt, if_pos (by simpa using hlt.ne)]
    · subst heq
      rw [filter_key_of_lt hlb, filter_key_of_gt hbr, if_neg (by simp)]
      rcases (thin_of_eq rfl).1 hthin with rfl | rfl
      · rw [erase_of_eq rfl, nil_join, toList_nil, List.nil_append]
      · rw [erase_of_eq rfl, join_nil, toList_nil, List.append_nil]
    · rw [erase_of_gt hgt, toList_rebalance, toList_erase hl ((thin_of_gt hgt).1 hthin),
        filter_key_of_gt (k := k) fun y hy => hgt.trans (hbr y hy), if_pos (by simpa using hgt.ne')]

/-! ## Balance -/

/-- A balanced tree stays balanced, and it loses at most one in height. -/
theorem erase_balanced : ∀ {x : AvlTree σ α}, x.Balanced → x.Thin key k →
    (x.erase key k).Balanced ∧ x.height - 1 ≤ (x.erase key k).height ∧
      (x.erase key k).height ≤ x.height
  | nil, _, _ => by simp [erase, Balanced]
  | node s l b r, h, hthin => by
    obtain ⟨h1, h2, hl, hr⟩ := h
    rcases lt_trichotomy (key b) k with hlt | heq | hgt
    · obtain ⟨hb, hlo, hhi⟩ := erase_balanced hr ((thin_of_lt hlt).1 hthin)
      have hbal := rebalance_balanced (s := s) (a := b) hl hb (by omega) (by omega)
      have hheight := height_rebalance (s := s) (a := b) hl hb (by omega) (by omega)
      rw [erase_of_lt hlt]
      refine ⟨hbal.1, ?_, ?_⟩ <;> rw [height_node] <;> omega
    · have hlge := neg_one_le_height l
      have hrge := neg_one_le_height r
      rw [erase_of_eq heq]
      rcases (thin_of_eq heq).1 hthin with rfl | rfl
      · rw [nil_join]
        refine ⟨hr, ?_, ?_⟩ <;> rw [height_node, height_nil] <;> omega
      · rw [join_nil]
        refine ⟨hl, ?_, ?_⟩ <;> rw [height_node, height_nil] <;> omega
    · obtain ⟨hb, hlo, hhi⟩ := erase_balanced hl ((thin_of_gt hgt).1 hthin)
      have hbal := rebalance_balanced (s := s) (a := b) hb hr (by omega) (by omega)
      have hheight := height_rebalance (s := s) (a := b) hb hr (by omega) (by omega)
      rw [erase_of_gt hgt]
      refine ⟨hbal.1, ?_, ?_⟩ <;> rw [height_node] <;> omega

/-! ## Subtrees -/

/-- `x` is a subtree of `y`. -/
inductive Sub (x : AvlTree σ α) : AvlTree σ α → Prop
  | refl : Sub x x
  | left {s : σ} {l : AvlTree σ α} {a : α} {r : AvlTree σ α} : Sub x l → Sub x (node s l a r)
  | right {s : σ} {l : AvlTree σ α} {a : α} {r : AvlTree σ α} : Sub x r → Sub x (node s l a r)

/-- The in-order list around a subtree. -/
theorem Sub.exists_toList (h : Sub x y) : ∃ xs ys, y.toList = xs ++ x.toList ++ ys := by
  induction h with
  | refl => exact ⟨[], [], by simp⟩
  | @left s l a r _ ih =>
    obtain ⟨xs, ys, ih⟩ := ih
    exact ⟨xs, ys ++ a :: r.toList, by simp [ih]⟩
  | @right s l a r _ ih =>
    obtain ⟨xs, ys, ih⟩ := ih
    exact ⟨l.toList ++ a :: xs, ys, by simp [ih]⟩

/-- The values of a subtree are values of the tree. -/
theorem Sub.mem (h : Sub x y) (ha : a ∈ x.toList) : a ∈ y.toList := by
  obtain ⟨xs, ys, heq⟩ := h.exists_toList
  rw [heq]
  exact List.mem_append_left _ (List.mem_append_right _ ha)

/-- A subtree of a balanced tree is balanced. -/
theorem Sub.balanced (h : Sub x y) (hy : y.Balanced) : x.Balanced := by
  induction h with
  | refl => exact hy
  | left _ ih => exact ih hy.2.2.1
  | right _ ih => exact ih hy.2.2.2

/-- The slots of a subtree are slots of the tree. -/
theorem Sub.sublist_slots (h : Sub x y) : x.slots.Sublist y.slots := by
  induction h with
  | refl => exact .refl _
  | left _ ih => exact (ih.trans (List.sublist_append_left ..)).cons _
  | right _ ih => exact (ih.trans (List.sublist_append_right ..)).cons _

/-- A subtree of a search tree is a search tree. -/
theorem Sub.sorted (h : Sub x y) (hy : SortedBy key y.toList) : SortedBy key x.toList := by
  obtain ⟨xs, ys, heq⟩ := h.exists_toList
  rw [heq] at hy
  exact (SortedBy.append_iff.1 (SortedBy.append_iff.1 hy).1).2.1

/-- The subtree at a slot. -/
theorem exists_sub_of_mem : ∀ {x : AvlTree σ α}, s ∈ x.slots → ∃ l a r, Sub (node s l a r) x
  | node t l a r, h => by
    rw [slots_node, List.mem_cons, List.mem_append] at h
    rcases h with rfl | h | h
    · exact ⟨l, a, r, .refl⟩
    · obtain ⟨l', a', r', h⟩ := exists_sub_of_mem h
      exact ⟨l', a', r', .left h⟩
    · obtain ⟨l', a', r', h⟩ := exists_sub_of_mem h
      exact ⟨l', a', r', .right h⟩

/-- A node is as thin in the tree as in a subtree that has it. -/
theorem Sub.thin (h : Sub x y) (hy : SortedBy key y.toList) (ha : a ∈ x.toList)
    (hx : x.Thin key (key a)) : y.Thin key (key a) := by
  induction h with
  | refl => exact hx
  | left h ih =>
    obtain ⟨hl, -, hlb, -⟩ := sorted_node.1 hy
    exact (thin_of_gt (hlb a (h.mem ha))).2 (ih hl)
  | right h ih =>
    obtain ⟨-, hr, -, hbr⟩ := sorted_node.1 hy
    exact (thin_of_lt (hbr a (h.mem ha))).2 (ih hr)

/-- A thin key is at a node with at most one child. -/
theorem Sub.thin_node (h : Sub (node s l b r) y) (hy : SortedBy key y.toList)
    (hthin : y.Thin key (key b)) : l = nil ∨ r = nil := by
  have hb : b ∈ (node s l b r).toList := by simp
  induction h with
  | refl => exact (thin_of_eq rfl).1 hthin
  | left h ih =>
    obtain ⟨hl, -, hlb, -⟩ := sorted_node.1 hy
    exact ih hl ((thin_of_gt (hlb b (h.mem hb))).1 hthin)
  | right h ih =>
    obtain ⟨-, hr, -, hbr⟩ := sorted_node.1 hy
    exact ih hr ((thin_of_lt (hbr b (h.mem hb))).1 hthin)

/-- The left subtree is still one after a left rotation. -/
theorem sub_rotateLeft : Sub l (rotateLeft (node s l a r)) := by
  cases r with
  | nil => exact .left .refl
  | node t B b C => exact .left (.left .refl)

/-- The right subtree is still one after a right rotation. -/
theorem sub_rotateRight : Sub r (rotateRight (node s l a r)) := by
  cases l with
  | nil => exact .right .refl
  | node t A b B => exact .right (.right .refl)

/-- A rotation lifts the right side of a node whose left side has got smaller. -/
theorem sub_rebalance_left (h : l.height ≤ r.height + 1) : Sub l (rebalance s l a r) := by
  rw [rebalance, if_neg (by omega)]
  split_ifs
  · exact sub_rotateLeft
  · exact sub_rotateLeft
  · exact .left .refl

/-- A rotation lifts the left side of a node whose right side has got smaller. -/
theorem sub_rebalance_right (h : r.height ≤ l.height + 1) : Sub r (rebalance s l a r) := by
  rw [rebalance, if_neg (show ¬ l.height - r.height < -1 by omega)]
  split_ifs
  · exact sub_rotateRight
  · exact sub_rotateRight
  · exact .right .refl

/-- A subtree of a subtree. -/
theorem Sub.trans {z : AvlTree σ α} (h1 : Sub x y) (h2 : Sub y z) : Sub x z := by
  induction h2 with
  | refl => exact h1
  | left _ ih => exact .left ih
  | right _ ih => exact .right ih

/-- A left rotation keeps the slot of the root. -/
theorem exists_rotateLeft_eq : ∃ l' b r', rotateLeft (node s l a r) = node s l' b r' := by
  cases r <;> exact ⟨_, _, _, rfl⟩

/-- A right rotation keeps the slot of the root. -/
theorem exists_rotateRight_eq : ∃ l' b r', rotateRight (node s l a r) = node s l' b r' := by
  cases l <;> exact ⟨_, _, _, rfl⟩

/-- The root stays in its slot. -/
theorem exists_rebalance_eq : ∃ l' b r', rebalance s l a r = node s l' b r' := by
  unfold rebalance
  split_ifs
  · exact exists_rotateRight_eq
  · exact exists_rotateRight_eq
  · exact exists_rotateLeft_eq
  · exact exists_rotateLeft_eq
  · exact ⟨_, _, _, rfl⟩

/-- Deletion from a subtree is deletion from the tree. -/
theorem Sub.erase (h : Sub x y) (hy : SortedBy key y.toList) (hbal : y.Balanced)
    (ha : a ∈ x.toList) (hx : x.Thin key (key a)) :
    Sub (x.erase key (key a)) (y.erase key (key a)) := by
  induction h with
  | refl => exact .refl
  | left h ih =>
    obtain ⟨hl, -, hlb, -⟩ := sorted_node.1 hy
    obtain ⟨-, h2, hbl, -⟩ := hbal
    rw [erase_of_gt (hlb a (h.mem ha))]
    have := erase_balanced hbl (h.thin hl ha hx)
    exact (ih hl hbl).trans (sub_rebalance_left (by omega))
  | right h ih =>
    obtain ⟨-, hr, -, hbr⟩ := sorted_node.1 hy
    obtain ⟨h1, -, -, hbr'⟩ := hbal
    rw [erase_of_lt (hbr a (h.mem ha))]
    have := erase_balanced hbr' (h.thin hr ha hx)
    exact (ih hr hbr').trans (sub_rebalance_right (by omega))

/-! ## A node with two children -/

/-- Change the values. -/
def map {β : Type*} (f : α → β) : AvlTree σ α → AvlTree σ β
  | nil => nil
  | node s l a r => node s (l.map f) (f a) (r.map f)

section
variable {β : Type*} {f : α → β}

/-- The values are mapped in their order. -/
@[simp] theorem toList_map : ∀ {x : AvlTree σ α}, (x.map f).toList = x.toList.map f
  | nil => rfl
  | node _ _ _ _ => by simp [map, toList_map]

/-- The slots do not depend on the values. -/
@[simp] theorem slots_map : ∀ {x : AvlTree σ α}, (x.map f).slots = x.slots
  | nil => rfl
  | node _ _ _ _ => by simp [map, slots_map]

/-- The height does not depend on the values. -/
@[simp] theorem height_map : ∀ {x : AvlTree σ α}, (x.map f).height = x.height
  | nil => rfl
  | node _ _ _ _ => by simp [map, height_map]

/-- Nor does the balance. -/
theorem map_balanced : ∀ {x : AvlTree σ α}, x.Balanced → (x.map f).Balanced
  | nil, _ => trivial
  | node s l a r, ⟨h1, h2, hl, hr⟩ => by
    have hbal : (l.map f).Balanced ∧ (r.map f).Balanced := ⟨map_balanced hl, map_balanced hr⟩
    rw [map, Balanced, height_map, height_map]
    exact ⟨h1, h2, hbal⟩

/-- A function that changes no value changes no tree. -/
theorem map_eq_self {f : α → α} : ∀ {x : AvlTree σ α}, (∀ a ∈ x.toList, f a = a) → x.map f = x
  | nil, _ => rfl
  | node s l b r, h => by
    rw [map, h b (by simp), map_eq_self fun a ha => h a (by simp [ha]),
      map_eq_self fun a ha => h a (by simp [ha])]

end

/-- The node of the last key is thin. -/
theorem thin_of_toList : ∀ {x : AvlTree σ α} {xs : List α}, SortedBy key x.toList →
    x.toList = xs ++ [m] → x.Thin key (key m)
  | nil, _, _, _ => trivial
  | node s l b r, xs, h, heq => by
    obtain ⟨-, hr, -, hbr⟩ := sorted_node.1 h
    rw [toList_node] at heq
    rcases List.eq_nil_or_concat r.toList with hnil | ⟨ys, n, hys⟩
    · rw [hnil] at heq
      obtain rfl : m = b := by simpa using (List.append_inj' heq rfl).2.symm
      refine (thin_of_eq rfl).2 (.inr ?_)
      cases r with
      | nil => rfl
      | node => simp at hnil
    · rw [hys, List.concat_eq_append, ← List.cons_append, ← List.append_assoc] at heq
      obtain rfl : m = n := by simpa using (List.append_inj' heq rfl).2.symm
      rw [List.concat_eq_append] at hys
      exact (thin_of_lt (hbr m (by simp [hys]))).2 (thin_of_toList hr hys)

/-- The predecessor of a key whose node has a left child. -/
theorem thin_of_left {xs : List α} (hsub : Sub (node s l b r) y) (hy : SortedBy key y.toList)
    (hl : l.toList = xs ++ [m]) : (node s l b r).Thin key (key m) ∧ y.Thin key (key m) := by
  obtain ⟨hsl, -, hlb, -⟩ := sorted_node.1 (hsub.sorted hy)
  have hthin : (node s l b r).Thin key (key m) :=
    (thin_of_gt (hlb m (by simp [hl]))).2 (thin_of_toList hsl hl)
  exact ⟨hthin, hsub.thin hy (by simp [hl]) hthin⟩

/-- The predecessor of a key is not at the root. -/
theorem Sub.root_ne {u : σ} {A B : AvlTree σ α} (hsub : Sub (node s l b r) (node u A a B))
    (hy : SortedBy key (node u A a B).toList) (hm : m ∈ l.toList) : key a ≠ key m := by
  obtain ⟨-, -, hA, hB⟩ := sorted_node.1 hy
  cases hsub with
  | refl => exact (hA m hm).ne'
  | left h => exact (hA m (h.mem (by simp [hm]))).ne'
  | right h => exact (hB m (h.mem (by simp [hm]))).ne

/-- When the predecessor of a key is taken out and put in its place, the key has gone. -/
theorem toList_erase_replace {xs : List α} (hsub : Sub (node s l b r) y)
    (hy : SortedBy key y.toList) (hl : l.toList = xs ++ [m]) :
    ((y.erase key (key m)).map fun a => if key a = key b then m else a).toList =
      y.toList.filter (key · ≠ key b) := by
  have hthin := (thin_of_left hsub hy hl).2
  obtain ⟨us, vs, heq⟩ := hsub.exists_toList
  rw [toList_node, hl] at heq
  have heq1 : y.toList = (us ++ xs) ++ m :: (b :: (r.toList ++ vs)) := by simp [heq]
  have heq2 : y.toList = (us ++ xs ++ [m]) ++ b :: (r.toList ++ vs) := by simp [heq]
  have h2 := (heq2 ▸ hy).around
  have hf : ∀ zs : List α, (∀ a ∈ zs, key a ≠ key b) →
      (zs.map fun a => if key a = key b then m else a) = zs := fun zs hzs => by
    rw [List.map_congr_left fun a ha => if_neg (hzs a ha), List.map_id']
  rw [toList_map, toList_erase hy hthin, heq1, filter_key_middle (heq1 ▸ hy) rfl, ← heq1, heq2,
    filter_key_middle (heq2 ▸ hy) rfl, List.map_append, List.map_cons, if_pos rfl,
    hf _ fun a ha => (h2.1 a (List.mem_append_left _ ha)).ne, hf _ fun a ha => (h2.2 a ha).ne']
  simp

end AvlTree

end Rdbms
