import Mathlib.Data.List.Nodup
import Mathlib.Order.Lattice

/-!
# Lists strictly sorted by a key

A list of cells whose keys strictly increase holds every key once, and a key splits it into the
cells below and the cells from it on. `insertSorted` puts a cell in its place.
-/

namespace Rdbms

/-- The keys strictly increase along the list. -/
def SortedBy {α κ : Type*} [LT κ] (key : α → κ) (l : List α) : Prop :=
  l.Pairwise (key · < key ·)

namespace SortedBy
variable {α β κ : Type*} [LinearOrder κ] {key : α → κ} {l l1 l2 : List α} {a b : α} {k : κ}

/-- A first cell is smaller than the others. -/
theorem cons_iff : SortedBy key (a :: l) ↔ (∀ x ∈ l, key a < key x) ∧ SortedBy key l :=
  List.pairwise_cons

/-- Two sorted parts, the first with the smaller keys. -/
theorem append_iff : SortedBy key (l1 ++ l2) ↔
    SortedBy key l1 ∧ SortedBy key l2 ∧ ∀ x ∈ l1, ∀ y ∈ l2, key x < key y :=
  List.pairwise_append

/-- The rest of a sorted list is sorted. -/
theorem tail (h : SortedBy key (a :: l)) : SortedBy key l := (cons_iff.1 h).2

/-- The cells around a cell are below and above it. -/
theorem around (h : SortedBy key (l1 ++ a :: l2)) :
    (∀ x ∈ l1, key x < key a) ∧ ∀ x ∈ l2, key a < key x := by
  have h := append_iff.1 h
  exact ⟨fun x hx => h.2.2 x hx a (.head _), (cons_iff.1 h.2.1).1⟩

/-- A cell put between the smaller and the larger ones. -/
theorem insert (h : SortedBy key (l1 ++ l2)) (h1 : ∀ x ∈ l1, key x < key a)
    (h2 : ∀ x ∈ l2, key a < key x) : SortedBy key (l1 ++ a :: l2) := by
  have h := append_iff.1 h
  refine append_iff.2 ⟨h.1, cons_iff.2 ⟨h2, h.2.1⟩, fun x hx y hy => ?_⟩
  rcases List.mem_cons.1 hy with rfl | hy
  · exact h1 x hx
  · exact h.2.2 x hx y hy

/-- A list is as sorted as the list of its keys. -/
theorem iff_map : SortedBy key l ↔ (l.map key).Pairwise (· < ·) := by
  rw [List.pairwise_map]; rfl

/-- Lists with the same keys are sorted together. -/
theorem congr_map {key' : β → κ} {l' : List β} (hk : l'.map key' = l.map key)
    (h : SortedBy key l) : SortedBy key' l' := by
  rw [iff_map, hk]; exact iff_map.1 h

/-- A cell replaced by one with the same key. -/
theorem replace (h : SortedBy key (l1 ++ a :: l2)) (hk : key b = key a) :
    SortedBy key (l1 ++ b :: l2) :=
  h.congr_map (by simp [hk])

/-- No cell occurs twice. -/
theorem nodup (h : SortedBy key l) : l.Nodup := by
  refine List.Pairwise.imp ?_ h
  rintro x _ hlt rfl
  exact lt_irrefl _ hlt

/-- What is left of a sorted list is sorted. -/
theorem filter (h : SortedBy key l) (p : α → Bool) : SortedBy key (l.filter p) :=
  List.Pairwise.filter p h

/-- A key occurs once. -/
theorem eq_of_key (h : SortedBy key l) (ha : a ∈ l) (hb : b ∈ l) (hk : key a = key b) : a = b := by
  induction l with
  | nil => cases ha
  | cons x l ih =>
    have hx := (cons_iff.1 h).1
    rcases List.mem_cons.1 ha with rfl | ha'
    · rcases List.mem_cons.1 hb with rfl | hb'
      · rfl
      · exact absurd hk (hx b hb').ne
    · rcases List.mem_cons.1 hb with rfl | hb'
      · exact absurd hk (hx a ha').ne'
      · exact ih h.tail ha' hb'

/-- A later cell has a larger key. -/
theorem getElem_lt (h : SortedBy key l) {i j : Nat} (hij : i < j) (hj : j < l.length) :
    key l[i] < key l[j] :=
  List.pairwise_iff_getElem.1 h i j (by omega) hj hij

/-- A cell that is not earlier has no smaller key. -/
theorem getElem_le (h : SortedBy key l) {i j : Nat} (hij : i ≤ j) (hj : j < l.length) :
    key l[i] ≤ key l[j] := by
  rcases Nat.lt_or_eq_of_le hij with hlt | rfl
  · exact (h.getElem_lt hlt hj).le
  · exact le_rfl

/-- A key splits a sorted list. -/
theorem exists_split (h : SortedBy key l) (k : κ) :
    ∃ l1 l2, l = l1 ++ l2 ∧ (∀ x ∈ l1, key x < k) ∧ ∀ x ∈ l2, k ≤ key x := by
  induction l with
  | nil => exact ⟨[], [], rfl, by simp, by simp⟩
  | cons x l ih =>
    rcases lt_or_ge (key x) k with hlt | hge
    · obtain ⟨l1, l2, rfl, h1, h2⟩ := ih h.tail
      refine ⟨x :: l1, l2, rfl, fun y hy => ?_, h2⟩
      rcases List.mem_cons.1 hy with rfl | hy
      · exact hlt
      · exact h1 y hy
    · refine ⟨[], x :: l, rfl, by simp, fun y hy => ?_⟩
      rcases List.mem_cons.1 hy with rfl | hy
      · exact hge
      · exact hge.trans ((cons_iff.1 h).1 y hy).le

/-- Sorted lists with the same cells are equal. -/
theorem eq_of_mem_iff (h1 : SortedBy key l1) (h2 : SortedBy key l2) (h : ∀ x, x ∈ l1 ↔ x ∈ l2) :
    l1 = l2 :=
  ((List.perm_ext_iff_of_nodup h1.nodup h2.nodup).2 h).eq_of_pairwise
    (fun _ _ _ _ hab hba => (lt_asymm hab hba).elim) h1 h2

end SortedBy

/-! ## Insertion -/

section
variable {α κ : Type*} [LinearOrder κ] {key : α → κ} {a b : α} {f : α → α} {l l1 l2 : List α}

/-- Put a cell in its place in a sorted list, or change the cell that has its key already. -/
def insertSorted (key : α → κ) (a : α) (f : α → α) : List α → List α
  | [] => [a]
  | b :: l =>
    if key a < key b then a :: b :: l
    else if key a = key b then f b :: l
    else b :: insertSorted key a f l

/-- Cells with smaller keys stay in front. -/
theorem insertSorted_append (h : ∀ x ∈ l1, key x < key a) :
    insertSorted key a f (l1 ++ l2) = l1 ++ insertSorted key a f l2 := by
  induction l1 with
  | nil => rfl
  | cons b l1 ih =>
    have hb := h b (.head _)
    rw [List.cons_append, insertSorted, if_neg hb.not_gt, if_neg hb.ne',
      ih fun x hx => h x (.tail _ hx), List.cons_append]

/-- A new key gets its place between the smaller and the larger keys. -/
theorem insertSorted_new (h1 : ∀ x ∈ l1, key x < key a) (h2 : ∀ x ∈ l2, key a < key x) :
    insertSorted key a f (l1 ++ l2) = l1 ++ a :: l2 := by
  rw [insertSorted_append h1]
  cases l2 with
  | nil => rfl
  | cons b l2 => rw [insertSorted, if_pos (h2 b (.head _))]

/-- A key that occurs has its cell changed. -/
theorem insertSorted_mem (h1 : ∀ x ∈ l1, key x < key a) (hb : key b = key a) :
    insertSorted key a f (l1 ++ b :: l2) = l1 ++ f b :: l2 := by
  rw [insertSorted_append h1, insertSorted, if_neg (by rw [hb]; exact lt_irrefl _), if_pos hb.symm]

/-- In front of a larger cell. -/
theorem insertSorted_append_cons (h : key a < key b) :
    insertSorted key a f (l1 ++ b :: l2) = insertSorted key a f l1 ++ b :: l2 := by
  induction l1 with
  | nil =>
    have : insertSorted key a f (b :: l2) = a :: b :: l2 := if_pos h
    exact this
  | cons c l1 ih =>
    rw [List.cons_append, insertSorted, insertSorted]
    split
    · rfl
    split
    · rfl
    rw [ih, List.cons_append]

/-- What an insertion into a sorted list does. -/
theorem insertSorted_cases (h : SortedBy key l) (a : α) (f : α → α) :
    (∃ l1 b l2, l = l1 ++ b :: l2 ∧ key b = key a ∧ insertSorted key a f l = l1 ++ f b :: l2) ∨
    ∃ l1 l2, l = l1 ++ l2 ∧ (∀ x ∈ l1, key x < key a) ∧ (∀ x ∈ l2, key a < key x) ∧
      insertSorted key a f l = l1 ++ a :: l2 := by
  obtain ⟨l1, l2, rfl, h1, h2⟩ := h.exists_split (key a)
  by_cases hb : ∃ b l3, l2 = b :: l3 ∧ key b = key a
  · obtain ⟨b, l3, rfl, hb⟩ := hb
    exact .inl ⟨l1, b, l3, rfl, hb, insertSorted_mem h1 hb⟩
  · have h2' : ∀ x ∈ l2, key a < key x := by
      intro x hx
      cases l2 with
      | nil => cases hx
      | cons b l3 =>
        have hab : key a < key b :=
          lt_of_le_of_ne (h2 b (.head _)) fun he => hb ⟨b, l3, rfl, he.symm⟩
        rcases List.mem_cons.1 hx with rfl | hx
        · exact hab
        · exact hab.trans ((SortedBy.cons_iff.1 (SortedBy.append_iff.1 h).2.1).1 x hx)
    exact .inr ⟨l1, l2, rfl, h1, h2', insertSorted_new h1 h2'⟩

/-- An insertion into the images of the cells. -/
theorem map_insertSorted {β : Type*} {key' : β → κ} {g : α → β} {f' : β → β}
    (hkey : ∀ b, key' (g b) = key b) (hf : ∀ b, g (f b) = f' (g b)) :
    (insertSorted key a f l).map g = insertSorted key' (g a) f' (l.map g) := by
  induction l with
  | nil => rfl
  | cons b l ih =>
    rw [insertSorted, List.map_cons, insertSorted, hkey, hkey]
    split
    · rfl
    split
    · rw [List.map_cons, hf]
    · rw [List.map_cons, ih]

/-- The list stays sorted. -/
theorem sorted_insertSorted (h : SortedBy key l) (hf : ∀ b, key (f b) = key b) :
    SortedBy key (insertSorted key a f l) := by
  rcases insertSorted_cases h a f with ⟨l1, b, l2, rfl, -, hins⟩ | ⟨l1, l2, rfl, h1, h2, hins⟩
  · rw [hins]
    exact h.replace (hf b)
  · rw [hins]
    exact h.insert h1 h2

/-- The keys after an insertion. -/
theorem mem_keys_insertSorted (h : SortedBy key l) (hf : ∀ b, key (f b) = key b) {k : κ} :
    k ∈ (insertSorted key a f l).map key ↔ k = key a ∨ k ∈ l.map key := by
  rcases insertSorted_cases h a f with ⟨l1, b, l2, rfl, hb, hins⟩ | ⟨l1, l2, rfl, -, -, hins⟩
  · have hk : ∀ k, k = key a → k = key b := fun k hk => hk.trans hb.symm
    simp only [hins, List.map_append, List.map_cons, List.mem_append, List.mem_cons, hf]
    exact ⟨.inr, fun h => h.elim (fun e => .inr (.inl (hk k e))) id⟩
  · simp only [hins, List.map_append, List.map_cons, List.mem_append, List.mem_cons]
    exact or_left_comm

/-- The cells of the other keys stay. -/
theorem mem_insertSorted_of_ne (h : SortedBy key l) (hf : ∀ b, key (f b) = key b)
    (hb : key b ≠ key a) : b ∈ insertSorted key a f l ↔ b ∈ l := by
  rcases insertSorted_cases h a f with ⟨l1, c, l2, rfl, hc, hins⟩ | ⟨l1, l2, rfl, -, -, hins⟩
  · have h1 : b ≠ f c := fun e => hb (by rw [e, hf, hc])
    have h2 : b ≠ c := fun e => hb (by rw [e, hc])
    simp only [hins, List.mem_append, List.mem_cons, h1, h2, false_or]
  · have h1 : b ≠ a := fun e => hb (by rw [e])
    simp only [hins, List.mem_append, List.mem_cons, h1, false_or]

end

end Rdbms
