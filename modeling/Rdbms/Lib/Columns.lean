import Mathlib.Data.List.Count
import Mathlib.Data.Nat.Basic
import Mathlib.Order.Basic

/-!
# Selection and projection

A row is a list, and a projection keeps the elements at some of its positions (`keep`). A loop that
erases the others from the last position to the first does the same (`foldr_eraseIdx`). Projecting a
second time changes nothing exactly when what is kept are the first columns (`keep_keep_of_initial`,
`initial_of_length_keep`), and a selection after a projection takes the same rows as one before it
exactly when the predicate does not tell a row from its projection (`map_filter_eq_iff`).
-/

namespace Rdbms
variable {α β : Type*} {p q : Nat → Bool} {l : List α} {i n : Nat}

/-! ## Projection -/

/-- The elements of a list at the positions where `p` holds. The first one is at `i`. -/
def keepFrom (p : Nat → Bool) : Nat → List α → List α
  | _, [] => []
  | i, a :: l => if p i then a :: keepFrom p (i + 1) l else keepFrom p (i + 1) l

/-- The columns of a row at the positions where `p` holds. -/
def keep (p : Nat → Bool) (l : List α) : List α := keepFrom p 0 l

/-- The element at a position that is kept. -/
theorem keepFrom_cons_of_pos {a : α} (h : p i = true) :
    keepFrom p i (a :: l) = a :: keepFrom p (i + 1) l := by
  rw [keepFrom, if_pos h]

/-- The element at a position that is not kept. -/
theorem keepFrom_cons_of_neg {a : α} (h : p i ≠ true) :
    keepFrom p i (a :: l) = keepFrom p (i + 1) l := by
  rw [keepFrom, if_neg h]

/-- Only the positions of the list are asked for. -/
theorem keepFrom_congr : ∀ {l : List α} {i : Nat}, (∀ j, i ≤ j → j < i + l.length → p j = q j) →
    keepFrom p i l = keepFrom q i l
  | [], _, _ => rfl
  | a :: l, i, h => by
    have hi : p i = q i := h i le_rfl (by simp)
    have hl : keepFrom p (i + 1) l = keepFrom q (i + 1) l :=
      keepFrom_congr fun j hj hlt => h j (by omega) (by simp; omega)
    rw [keepFrom, keepFrom, hi, hl]

/-- Only the positions of the row matter. -/
theorem keep_congr (h : ∀ j < l.length, p j = q j) : keep p l = keep q l :=
  keepFrom_congr fun j _ hlt => h j (by omega)

/-- Nothing is dropped when every position is kept. -/
theorem keepFrom_of_all : ∀ {l : List α} {i : Nat}, (∀ j, i ≤ j → j < i + l.length → p j = true) →
    keepFrom p i l = l
  | [], _, _ => rfl
  | a :: l, i, h => by
    have hl : keepFrom p (i + 1) l = l :=
      keepFrom_of_all fun j hj hlt => h j (by omega) (by simp; omega)
    rw [keepFrom_cons_of_pos (h i le_rfl (by simp)), hl]

/-- Nothing is left when no position is kept. -/
theorem keepFrom_of_none : ∀ {l : List α} {i : Nat}, (∀ j, i ≤ j → j < i + l.length → p j ≠ true) →
    keepFrom p i l = []
  | [], _, _ => rfl
  | a :: l, i, h => by
    rw [keepFrom_cons_of_neg (h i le_rfl (by simp))]
    exact keepFrom_of_none fun j hj hlt => h j (by omega) (by simp; omega)

/-- When all columns are kept, the row stays as it is. -/
theorem keep_of_all (h : ∀ j < l.length, p j = true) : keep p l = l :=
  keepFrom_of_all fun j _ hlt => h j (by omega)

/-- As many elements are left as positions are kept. -/
theorem length_keepFrom : ∀ (l : List α) (i : Nat),
    (keepFrom p i l).length = (List.range' i l.length).countP p
  | [], _ => rfl
  | a :: l, i => by
    rw [List.length_cons, List.range'_succ]
    by_cases h : p i = true
    · rw [keepFrom_cons_of_pos h, List.length_cons, length_keepFrom l, List.countP_cons_of_pos h]
    · rw [keepFrom_cons_of_neg h, length_keepFrom l, List.countP_cons_of_neg h]

/-- As many elements are left as positions are kept, from the first on. -/
theorem length_keep (p : Nat → Bool) (l : List α) :
    (keep p l).length = (List.range l.length).countP p := by
  rw [keep, length_keepFrom, List.range_eq_range']

/-- No elements are added. -/
theorem length_keep_le (p : Nat → Bool) (l : List α) : (keep p l).length ≤ l.length := by
  rw [length_keep]
  exact List.countP_le_length.trans_eq (List.length_range)

/-- When the positions to keep are those of some names, the elements under these names are left. -/
theorem keepFrom_zip {c : β → Bool} : ∀ {l : List α} {names : List β} {i : Nat},
    names.length = l.length → (∀ j (hj : j < names.length), p (i + j) = c names[j]) →
      keepFrom p i l = ((names.zip l).filter (c ·.1)).map (·.2)
  | [], _, _, _, _ => by simp [keepFrom]
  | a :: l, [], i, hlen, _ => by cases hlen
  | a :: l, b :: names, i, hlen, h => by
    have hl : keepFrom p (i + 1) l = ((names.zip l).filter (c ·.1)).map (·.2) := by
      refine keepFrom_zip (by simpa using hlen) fun j hj => ?_
      have := h (j + 1) (by simpa using hj)
      rw [Nat.add_right_comm, Nat.add_assoc]
      exact this
    have hb : p i = c b := h 0 (Nat.succ_pos _)
    rw [keepFrom, hl, List.zip_cons_cons, List.filter_cons, hb]
    split_ifs
    · rfl
    · rfl

/-- Where the names of the columns decide, the columns that are kept are those named. -/
theorem keep_zip {c : β → Bool} {names : List β} (hlen : names.length = l.length)
    (h : ∀ j (hj : j < names.length), p j = c names[j]) :
    keep p l = ((names.zip l).filter (c ·.1)).map (·.2) :=
  keepFrom_zip hlen fun j hj => by
    rw [Nat.zero_add]
    exact h j hj

/-- One position is kept, and it may lie behind the list. -/
theorem keepFrom_singleton (i : Nat) : ∀ (l : List α) (k : Nat),
    keepFrom (fun j => decide (j = i)) k l = if k ≤ i then l[i - k]?.toList else []
  | [], k => by simp [keepFrom]
  | a :: l, k => by
    rcases lt_trichotomy k i with hlt | rfl | hgt
    · have hsub : i - k = (i - (k + 1)) + 1 := by omega
      rw [keepFrom_cons_of_neg (by simpa using hlt.ne), keepFrom_singleton i l,
        if_pos (Nat.succ_le_of_lt hlt),
        if_pos hlt.le, hsub, List.getElem?_cons_succ]
    · rw [keepFrom_cons_of_pos (by simp), keepFrom_singleton k l, if_neg (Nat.not_succ_le_self k),
        if_pos le_rfl, Nat.sub_self]
      rfl
    · rw [keepFrom_cons_of_neg (by simpa using hgt.ne'), keepFrom_singleton i l,
        if_neg (by omega), if_neg hgt.not_ge]

/-- One column. -/
theorem keep_singleton (i : Nat) (l : List α) :
    keep (fun j => decide (j = i)) l = l[i]?.toList := by
  rw [keep, keepFrom_singleton, if_pos (Nat.zero_le i), Nat.sub_zero]

/-- Erasing from the last position to the first. -/
theorem foldr_eraseIdx_append (p : Nat → Bool) : ∀ l back : List α,
    (List.range' l.length back.length).foldr
        (fun i row => if p i then row else row.eraseIdx i) (l ++ back) =
      l ++ keepFrom p l.length back
  | l, [] => by simp [keepFrom]
  | l, a :: back => by
    -- the columns behind `a` have been gone through
    have ih := foldr_eraseIdx_append p (l ++ [a]) back
    rw [List.append_assoc, List.append_assoc, List.singleton_append, List.singleton_append,
      List.length_append, List.length_singleton] at ih
    rw [List.length_cons, List.range'_succ, List.foldr_cons, ih]
    by_cases h : p l.length = true
    · rw [if_pos h, keepFrom_cons_of_pos h]
    · rw [if_neg h, keepFrom_cons_of_neg h, List.eraseIdx_append_of_length_le le_rfl,
        Nat.sub_self, List.eraseIdx_cons_zero]

/-- Erasing the columns that are not kept, from the last one to the first. -/
theorem foldr_eraseIdx (p : Nat → Bool) (l : List α) :
    (List.range l.length).foldr (fun i row => if p i then row else row.eraseIdx i) l = keep p l := by
  rw [List.range_eq_range']
  exact foldr_eraseIdx_append p [] l

/-! ## Projecting twice -/

/-- The positions where `p` holds are the first ones among those below `n`. -/
def Initial (p : Nat → Bool) (n : Nat) : Prop :=
  ∀ j < n, p j = true → ∀ i < j, p i = true

/-- Keeping again keeps all when the kept positions are the first ones. -/
theorem keepFrom_of_initial : ∀ {l : List α} {i : Nat},
    (∀ j, i ≤ j → j < i + l.length → p j = true → ∀ k, i ≤ k → k < j → p k = true) →
    keepFrom p i (keepFrom p i l) = keepFrom p i l
  | [], _, _ => rfl
  | a :: l, i, h => by
    by_cases hi : p i = true
    · have hl : keepFrom p (i + 1) (keepFrom p (i + 1) l) = keepFrom p (i + 1) l :=
        keepFrom_of_initial fun j hj hlt hpj k hk hkj =>
          h j (by omega) (by simp; omega) hpj k (by omega) hkj
      rw [keepFrom_cons_of_pos hi, keepFrom_cons_of_pos hi, hl]
    · -- the first column is not kept, and no other one is
      have hnone : keepFrom p (i + 1) l = [] :=
        keepFrom_of_none fun j hj hlt hpj => hi (h j (by omega) (by simp; omega) hpj i le_rfl hj)
      rw [keepFrom_cons_of_neg hi, hnone]
      rfl

/-- The same, from the first position on. -/
theorem keep_keep_of_initial (h : Initial p l.length) : keep p (keep p l) = keep p l :=
  keepFrom_of_initial fun j _ hlt hpj k _ hkj => h j (by omega) hpj k hkj

/-- A second projection that leaves the row as long as it is has kept the first columns. -/
theorem initial_of_length_keep (h : (keep p (keep p l)).length = (keep p l).length) :
    Initial p l.length := by
  have hk := length_keep p (keep p l)
  have hn := length_keep p l
  generalize (keep p l).length = k at h hk hn
  rw [h] at hk
  have hall : ∀ i < k, p i = true := by
    have hcount : (List.range k).countP p = (List.range k).length := by
      rw [← hk, List.length_range]
    exact fun i hi => List.countP_eq_length.1 hcount i (List.mem_range.2 hi)
  have hle : k ≤ l.length := hn.le.trans (List.countP_le_length.trans_eq List.length_range)
  -- the positions from `k` on are not kept, since `k` of the others are
  have hrange : List.range l.length = List.range k ++ List.range' k (l.length - k) := by
    have happend := List.range'_append_1 (s := 0) (m := k) (n := l.length - k)
    rw [Nat.zero_add, Nat.add_sub_cancel' hle] at happend
    rw [List.range_eq_range', List.range_eq_range', happend]
  rw [hrange, List.countP_append, ← hk] at hn
  have hnone : (List.range' k (l.length - k)).countP p = 0 := by omega
  rw [List.countP_eq_zero] at hnone
  intro j hj hpj i hi
  refine hall i (hi.trans (not_le.1 fun hge => hnone j ?_ hpj))
  rw [List.mem_range'_1]
  omega

/-! ## Selection and projection -/

/-- A predicate that holds where another one does, on as many elements, is the same on the list. -/
theorem eq_of_length_filter {c d : α → Bool} (hcd : ∀ a ∈ l, c a = true → d a = true)
    (h : (l.filter d).length = (l.filter c).length) : ∀ a ∈ l, c a = d a := by
  have heq : l.filter c = l.filter d := by
    refine List.Sublist.eq_of_length ?_ h.symm
    have hc : l.filter c = (l.filter d).filter c := by
      rw [List.filter_filter]
      refine List.filter_congr fun a ha => ?_
      by_cases hca : c a = true
      · rw [hca, hcd a ha hca]
        rfl
      · rw [Bool.eq_false_iff.2 hca, Bool.false_and]
    rw [hc]
    exact List.filter_sublist
  intro a ha
  by_cases hda : d a = true
  · have hmem : a ∈ l.filter c := heq ▸ List.mem_filter.2 ⟨ha, hda⟩
    rw [hda, (List.mem_filter.1 hmem).2]
  · refine (Bool.eq_false_iff.2 fun hca => hda (hcd a ha hca)).trans ?_
    exact (Bool.eq_false_iff.2 hda).symm

/-- A selection after a projection gives what one before it gives when the predicate holds of a row
as of its projection, and only then. -/
theorem map_filter_eq_iff [DecidableEq β] {f : α → β} {c : α → Bool} {d : β → Bool} :
    (l.filter fun a => d (f a)).map f = (l.filter c).map f ↔ ∀ a ∈ l, c a = d (f a) := by
  constructor
  · intro h a ha
    -- the rows with the projection of `a`: all or none of them pass behind the projection
    have hcount : (l.filter fun x => f x = f a ∧ d (f x)).length =
        (l.filter fun x => f x = f a ∧ c x).length := by
      have := congrArg (List.count (f a)) h
      rw [List.count_eq_countP, List.count_eq_countP, List.countP_map, List.countP_map,
        List.countP_filter, List.countP_filter] at this
      rw [← List.countP_eq_length_filter, ← List.countP_eq_length_filter]
      refine Eq.trans (List.countP_congr fun x _ => ?_)
        (this.trans (List.countP_congr fun x _ => ?_))
      · simp
      · simp
    cases hd : d (f a) with
    | true =>
      have hall := eq_of_length_filter (l := l) (c := fun x => decide (f x = f a ∧ c x = true))
        (d := fun x => decide (f x = f a ∧ d (f x) = true)) (fun x _ hx => by
          have hfx := (of_decide_eq_true hx).1
          exact decide_eq_true ⟨hfx, hfx ▸ hd⟩) hcount a ha
      simpa [hd] using hall
    | false =>
      have hzero : (l.filter fun x => decide (f x = f a ∧ d (f x) = true)) = [] := by
        refine List.filter_eq_nil_iff.2 fun x _ hx => ?_
        have hx' := of_decide_eq_true hx
        rw [hx'.1, hd] at hx'
        exact Bool.false_ne_true hx'.2
      rw [hzero, List.length_nil] at hcount
      have hnil := List.eq_nil_of_length_eq_zero hcount.symm
      have hna := List.filter_eq_nil_iff.1 hnil a ha
      simpa using hna
  · intro h
    have heq : l.filter c = l.filter fun a => d (f a) := List.filter_congr h
    rw [heq]

end Rdbms
