import Mathlib.Data.Nat.Fib.Basic
import Rdbms.Lib.AvlErase

/-!
# The height of a balanced tree

A balanced tree with `h` levels has at least `Nat.fib (h + 2) - 1` nodes (`Balanced.fib_le`): of the
two subtrees of a root one has a level less than the tree and the other has at most one less than
that. So a walk down a balanced tree is short (`Balanced.levels_lt`).
-/

namespace Rdbms

namespace AvlTree
variable {σ α : Type*} {s : σ} {a : α} {l r t : AvlTree σ α} {n : Nat}

/-- The number of nodes on a longest way down. -/
def levels : AvlTree σ α → Nat
  | nil => 0
  | node _ l _ r => 1 + max l.levels r.levels

/-- An empty tree has no levels. -/
@[simp] theorem levels_nil : (nil : AvlTree σ α).levels = 0 := rfl

/-- A node has one level more than its taller subtree. -/
@[simp] theorem levels_node : (node s l a r).levels = 1 + max l.levels r.levels := rfl

/-- The left subtree has fewer levels. -/
theorem levels_left_lt : l.levels < (node s l a r).levels := by
  rw [levels_node]
  omega

/-- The right subtree has fewer levels. -/
theorem levels_right_lt : r.levels < (node s l a r).levels := by
  rw [levels_node]
  omega

/-- The height is counted from `-1`. -/
theorem height_eq_levels : ∀ t : AvlTree σ α, t.height = t.levels - 1
  | nil => rfl
  | node _ l _ r => by
    have hl := height_eq_levels l
    have hr := height_eq_levels r
    rw [height_node, levels_node]
    omega

/-- A subtree has at most the levels of the tree. -/
theorem Sub.levels_le {x y : AvlTree σ α} (h : Sub x y) : x.levels ≤ y.levels := by
  induction h with
  | refl => exact le_rfl
  | left _ ih => exact ih.trans levels_left_lt.le
  | right _ ih => exact ih.trans levels_right_lt.le

/-- A deletion adds no level. -/
theorem levels_erase_le {κ : Type*} [LinearOrder κ] {key : α → κ} {k : κ} (h : t.Balanced)
    (hthin : t.Thin key k) : (t.erase key k).levels ≤ t.levels := by
  have hle := (erase_balanced h hthin).2.2
  rw [height_eq_levels, height_eq_levels] at hle
  omega

/-- As many slots as values. -/
theorem length_slots : ∀ t : AvlTree σ α, t.slots.length = t.toList.length
  | nil => rfl
  | node _ l _ r => by
    have hl := length_slots l
    have hr := length_slots r
    simp only [slots_node, toList_node, List.length_cons, List.length_append]
    omega

/-- A balanced tree has many nodes. -/
theorem Balanced.fib_le : ∀ {t : AvlTree σ α}, t.Balanced → Nat.fib (t.levels + 2) ≤ t.toList.length + 1
  | nil, _ => by simp
  | node _ l _ r, ⟨h1, h2, hl, hr⟩ => by
    have hlf := hl.fib_le
    have hrf := hr.fib_le
    have hheight : ∀ x : AvlTree σ α, x.height = x.levels - 1 := height_eq_levels
    rw [hheight l, hheight r] at h1 h2
    rw [levels_node, toList_node, List.length_append, List.length_cons]
    -- the recurrence of the Fibonacci numbers at the root
    have hfib : Nat.fib (1 + max l.levels r.levels + 2) =
        Nat.fib (max l.levels r.levels + 1) + Nat.fib (max l.levels r.levels + 2) := by
      rw [show 1 + max l.levels r.levels + 2 = max l.levels r.levels + 1 + 2 by omega, Nat.fib_add_two]
    rw [hfib]
    rcases le_total l.levels r.levels with hle | hle
    · rw [max_eq_right hle]
      have hmono : Nat.fib (r.levels + 1) ≤ Nat.fib (l.levels + 2) := Nat.fib_mono (by omega)
      omega
    · rw [max_eq_left hle]
      have hmono : Nat.fib (l.levels + 1) ≤ Nat.fib (r.levels + 2) := Nat.fib_mono (by omega)
      omega

/-- A balanced tree with few nodes has few levels. -/
theorem Balanced.levels_lt (h : t.Balanced) (hn : t.toList.length + 1 < Nat.fib (n + 2)) :
    t.levels < n := by
  by_contra hge
  have hmono : Nat.fib (n + 2) ≤ Nat.fib (t.levels + 2) := Nat.fib_mono (by omega)
  exact absurd (hn.trans_le (hmono.trans h.fib_le)) (lt_irrefl _)

end AvlTree

end Rdbms
