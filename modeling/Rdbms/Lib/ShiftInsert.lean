import Mathlib.Data.List.Basic
import Mathlib.Order.Lattice
import Mathlib.Tactic.SplitIfs
import Mathlib.Tactic.Tauto

/-!
# Insertion by shifting

A key goes into a list from the back: while it is below the key at the place where it would go, the
key in front of the place moves up to it, and the place moves down. The first comparison is with
`behind`, the key that happens to stand behind the list, and every other one with a key that has
been moved up already. So the key ends up behind the list, at its front, or in front of the last key
that is not above it (`Shifted`), and a list in order is in order afterwards only if the key
`GoesInOrder`.
-/

namespace Rdbms
variable {κ : Type*} [LinearOrder κ] {k a behind : κ} {l1 l2 : List κ}

/-- The key `k` goes between `l1` and `l2`. -/
inductive Shifted (k behind : κ) : List κ → List κ → Prop
  | empty : Shifted k behind [] []
  | last {l1 : List κ} : behind ≤ k → Shifted k behind l1 []
  | before {l1 l2 : List κ} {a : κ} : k < behind → l1 = [] ∨ a ≤ k → (∀ x ∈ l2, k < x) →
      Shifted k behind l1 (a :: l2)

/-- The key at the place moves up. -/
theorem Shifted.concat (h : Shifted k a l1 l2) (hlt : k < behind) :
    Shifted k behind l1 (l2 ++ [a]) := by
  cases h with
  | empty => exact .before hlt (.inl rfl) nofun
  | last hle => exact .before hlt (.inr hle) nofun
  | before hka hl1 hl2 =>
    refine .before hlt hl1 fun x hx => ?_
    rcases List.mem_append.1 hx with hx | hx
    · exact hl2 x hx
    · exact (List.mem_singleton.1 hx) ▸ hka

/-- Whether `k` goes to a place where the list stays in order: below `behind`, to the front or next
to an equal key, and to the back otherwise. -/
def GoesInOrder (l : List κ) (behind k : κ) : Prop :=
  if k < behind then k ∈ l ∨ ∀ x ∈ l, k ≤ x else ∀ x ∈ l, x ≤ k

instance (l : List κ) (behind k : κ) : Decidable (GoesInOrder l behind k) :=
  inferInstanceAs (Decidable (if k < behind then k ∈ l ∨ ∀ x ∈ l, k ≤ x else ∀ x ∈ l, x ≤ k))

/-- A new key between two others does not, whatever `behind` is. -/
theorem not_goesInOrder {l : List κ} {x y : κ} (hx : x ∈ l) (hy : y ∈ l) (hxk : x < k) (hky : k < y)
    (hk : k ∉ l) : ¬ GoesInOrder l behind k := by
  unfold GoesInOrder
  split_ifs
  · rintro (hmem | hall)
    · exact hk hmem
    · exact (hall x hx).not_gt hxk
  · exact fun hall => (hall y hy).not_gt hky

/-- An element keeps the order when those in front are not larger and those behind not smaller. -/
theorem pairwise_le_insert_iff : (l1 ++ k :: l2).Pairwise (· ≤ ·) ↔
    (l1 ++ l2).Pairwise (· ≤ ·) ∧ (∀ x ∈ l1, x ≤ k) ∧ ∀ x ∈ l2, k ≤ x := by
  simp only [List.pairwise_append, List.pairwise_cons, List.forall_mem_cons, forall_and]
  tauto

/-- The order is kept exactly when the place of the element fits it. -/
theorem Shifted.pairwise_iff (h : Shifted k behind l1 l2) (hs : (l1 ++ l2).Pairwise (· ≤ ·)) :
    (l1 ++ k :: l2).Pairwise (· ≤ ·) ↔ GoesInOrder (l1 ++ l2) behind k := by
  rw [pairwise_le_insert_iff, and_iff_right hs]
  cases h with
  | empty =>
    refine iff_of_true ⟨nofun, nofun⟩ ?_
    unfold GoesInOrder
    split_ifs
    · exact .inr nofun
    · exact nofun
  | last hle =>
    rw [GoesInOrder, if_neg hle.not_gt, List.append_nil]
    exact and_iff_left nofun
  | @before l1 l2 a hlt hl1 hl2 =>
    obtain ⟨-, -, hcross⟩ := List.pairwise_append.1 hs
    have hle : ∀ x ∈ l1, x ≤ a := fun x hx => hcross x hx a (.head _)
    rw [GoesInOrder, if_pos hlt]
    constructor
    · rintro ⟨h1, h2⟩
      have hka : k ≤ a := h2 a (.head _)
      rcases hl1 with rfl | hak
      · exact .inr h2
      · exact .inl (List.mem_append.2 (.inr (le_antisymm hka hak ▸ .head _)))
    · intro hgoes
      have hka : k ≤ a := by
        rcases hgoes with hmem | hall
        · rcases List.mem_append.1 hmem with hmem | hmem
          · exact hle k hmem
          · rcases List.mem_cons.1 hmem with rfl | hmem
            · exact le_rfl
            · exact absurd (hl2 k hmem) (lt_irrefl k)
        · exact hall a (List.mem_append.2 (.inr (.head _)))
      refine ⟨fun x hx => ?_, List.forall_mem_cons.2 ⟨hka, fun x hx => (hl2 x hx).le⟩⟩
      rcases hl1 with rfl | hak
      · cases hx
      · exact (hle x hx).trans hak

end Rdbms
