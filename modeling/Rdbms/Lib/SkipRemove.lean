import Mathlib.Data.List.Chain
import Mathlib.Data.List.Forall2

/-!
# Removal in a loop by index

A loop `for (i = 0; i < l.size(); ++i) if (p(l[i])) l.erase(i)` takes the element that moves into the
place of a removed one for seen. What it leaves is `skipRemove p l`, and `lastRemoved p l` is what it
removed last. It removes all it looks for when no two neighbours satisfy `p`
(`forall_skipRemove_iff`).
-/

namespace Rdbms
variable {α β : Type*} {p : α → Bool} {a : α} {l : List α}

/-- What the loop leaves. -/
def skipRemove (p : α → Bool) : List α → List α
  | [] => []
  | [a] => if p a then [] else [a]
  | a :: b :: l => if p a then b :: skipRemove p l else a :: skipRemove p (b :: l)

/-- What the loop removes last. -/
def lastRemoved (p : α → Bool) : List α → Option α
  | [] => none
  | [a] => if p a then some a else none
  | a :: b :: l => if p a then (lastRemoved p l).or (some a) else lastRemoved p (b :: l)

/-- An element that stays. -/
theorem skipRemove_cons_of_neg (h : p a ≠ true) : skipRemove p (a :: l) = a :: skipRemove p l := by
  cases l with
  | nil => exact if_neg h
  | cons b l => exact if_neg h

/-- An element that stays is not the one that is reported. -/
theorem lastRemoved_cons_of_neg (h : p a ≠ true) : lastRemoved p (a :: l) = lastRemoved p l := by
  cases l with
  | nil => exact if_neg h
  | cons b l => exact if_neg h

/-- Elements only go. -/
theorem skipRemove_sublist (p : α → Bool) : ∀ l : List α, (skipRemove p l).Sublist l
  | [] => .slnil
  | [a] => by
    rw [skipRemove]
    split_ifs
    · exact List.nil_sublist _
    · exact .refl _
  | a :: b :: l => by
    rw [skipRemove]
    split_ifs
    · exact ((skipRemove_sublist p l).cons_cons b).cons a
    · exact (skipRemove_sublist p (b :: l)).cons_cons a

/-- What the loop does not look for stays in order. -/
theorem filter_skipRemove {q : α → Bool} (hpq : ∀ a, q a = true → p a ≠ true) :
    ∀ l : List α, (skipRemove p l).filter q = l.filter q
  | [] => rfl
  | [a] => by
    by_cases h : p a = true
    · rw [skipRemove, if_pos h, List.filter_cons_of_neg fun hq => hpq a hq h]
    · rw [skipRemove, if_neg h]
  | a :: b :: l => by
    by_cases h : p a = true
    · rw [skipRemove, if_pos h, List.filter_cons_of_neg (l := b :: l) fun hq => hpq a hq h,
        List.filter_cons, List.filter_cons, filter_skipRemove hpq l]
    · rw [skipRemove, if_neg h, List.filter_cons, List.filter_cons (x := a), filter_skipRemove hpq]

/-- The loop removes the last element only of a list of one. -/
theorem skipRemove_eq_nil_iff : skipRemove p l = [] ↔ l = [] ∨ ∃ a, l = [a] ∧ p a = true := by
  match l with
  | [] => simp [skipRemove]
  | [a] => by_cases h : p a = true <;> simp [skipRemove, h]
  | a :: b :: l => by_cases h : p a = true <;> simp [skipRemove, h]

/-- What is reported is an element of the list that was to go. -/
theorem mem_of_lastRemoved : ∀ {l : List α}, lastRemoved p l = some a → a ∈ l ∧ p a = true
  | [], h => by cases h
  | [b], h => by
    rw [lastRemoved] at h
    split_ifs at h with hb
    cases h
    exact ⟨.head _, hb⟩
  | b :: c :: l, h => by
    rw [lastRemoved] at h
    split_ifs at h with hb
    · rcases Option.or_eq_some_iff.1 h with h | ⟨-, h⟩
      · have := mem_of_lastRemoved h
        exact ⟨.tail _ (.tail _ this.1), this.2⟩
      · cases h
        exact ⟨.head _, hb⟩
    · have := mem_of_lastRemoved h
      exact ⟨.tail _ this.1, this.2⟩

/-- What is removed last is not in what the loop leaves. -/
theorem exists_of_lastRemoved : ∀ {l : List α}, lastRemoved p l = some a →
    ∃ l1 l2, l = l1 ++ a :: l2 ∧ (skipRemove p l).Sublist (l1 ++ l2)
  | [], h => by cases h
  | [b], h => by
    rw [lastRemoved] at h
    split_ifs at h with hb
    cases h
    refine ⟨[], [], rfl, ?_⟩
    rw [skipRemove, if_pos hb]
    exact .slnil
  | b :: c :: l, h => by
    rw [lastRemoved] at h
    split_ifs at h with hb
    · rw [skipRemove, if_pos hb]
      rcases Option.or_eq_some_iff.1 h with h | ⟨-, h⟩
      · obtain ⟨l1, l2, rfl, hsub⟩ := exists_of_lastRemoved h
        exact ⟨b :: c :: l1, l2, rfl, (hsub.cons_cons c).cons b⟩
      · cases h
        exact ⟨[], c :: l, rfl, (skipRemove_sublist p l).cons_cons c⟩
    · rw [skipRemove, if_neg hb]
      obtain ⟨l1, l2, hl, hsub⟩ := exists_of_lastRemoved h
      exact ⟨b :: l1, l2, by rw [hl]; rfl, hsub.cons_cons b⟩

/-- Two lists that agree on what is to go report alike. -/
theorem lastRemoved_forall₂ {R : α → β → Prop} {q : β → Bool} (hpq : ∀ a b, R a b → p a = q b) :
    ∀ {l : List α} {m : List β}, List.Forall₂ R l m →
      Option.Rel R (lastRemoved p l) (lastRemoved q m)
  | _, _, .nil => .none
  | _, _, .cons h .nil => by
    rw [lastRemoved, lastRemoved, hpq _ _ h]
    split_ifs
    · exact .some h
    · exact .none
  | _, _, .cons h (.cons h' hl) => by
    rw [lastRemoved, lastRemoved, hpq _ _ h]
    split_ifs
    · have hrest := lastRemoved_forall₂ hpq hl
      revert hrest
      generalize lastRemoved p _ = x
      generalize lastRemoved q _ = y
      rintro (hlast | -)
      · exact .some hlast
      · exact .some h
    · exact lastRemoved_forall₂ hpq (.cons h' hl)

/-- Two neighbours that are both to go do not begin at an element that stays. -/
theorem isChain_cons_of_neg (h : p a ≠ true)
    (hl : l.IsChain fun a b => ¬ (p a = true ∧ p b = true)) :
    (a :: l).IsChain fun a b => ¬ (p a = true ∧ p b = true) :=
  List.isChain_cons.2 ⟨fun _ _ hab => h hab.1, hl⟩

/-- Nothing with `p` is left exactly when there have been no two neighbours. -/
theorem forall_skipRemove_iff : ∀ {l : List α}, (∀ a ∈ skipRemove p l, p a ≠ true) ↔
    l.IsChain fun a b => ¬ (p a = true ∧ p b = true)
  | [] => by simp [skipRemove]
  | [a] => by by_cases h : p a = true <;> simp [skipRemove, h]
  | a :: b :: l => by
    rw [List.isChain_cons_cons]
    by_cases h : p a = true
    · rw [skipRemove, if_pos h, List.forall_mem_cons, forall_skipRemove_iff]
      constructor
      · rintro ⟨hb, hl⟩
        exact ⟨fun hab => hb hab.2, isChain_cons_of_neg hb hl⟩
      · rintro ⟨hab, hl⟩
        exact ⟨fun hb => hab ⟨h, hb⟩, hl.of_cons⟩
    · rw [skipRemove_cons_of_neg h, List.forall_mem_cons, forall_skipRemove_iff]
      exact and_congr (by simp [h]) Iff.rfl

/-- Where the loop removes all, it removes the last one with `p` last. -/
theorem lastRemoved_eq_getLast? : ∀ {l : List α},
    l.IsChain (fun a b => ¬ (p a = true ∧ p b = true)) → lastRemoved p l = (l.filter p).getLast?
  | [], _ => rfl
  | [a], _ => by by_cases h : p a = true <;> simp [lastRemoved, h]
  | a :: b :: l, hl => by
    rw [List.isChain_cons_cons] at hl
    by_cases h : p a = true
    · have hb : p b ≠ true := fun hb => hl.1 ⟨h, hb⟩
      rw [lastRemoved, if_pos h, lastRemoved_eq_getLast? hl.2.of_cons, List.filter_cons_of_pos h,
        List.filter_cons_of_neg hb, List.getLast?_cons]
      cases (l.filter p).getLast? <;> rfl
    · rw [lastRemoved_cons_of_neg h, lastRemoved_eq_getLast? hl.2, List.filter_cons_of_neg h]

/-- Two lists that agree on what is to go are left alike. -/
theorem skipRemove_forall₂ {R : α → β → Prop} {q : β → Bool} (hpq : ∀ a b, R a b → p a = q b) :
    ∀ {l : List α} {m : List β}, List.Forall₂ R l m →
      List.Forall₂ R (skipRemove p l) (skipRemove q m)
  | _, _, .nil => .nil
  | _, _, .cons h .nil => by
    rw [skipRemove, skipRemove, hpq _ _ h]
    split_ifs
    · exact .nil
    · exact .cons h .nil
  | _, _, .cons h (.cons h' hl) => by
    rw [skipRemove, skipRemove, hpq _ _ h]
    split_ifs
    · exact .cons h' (skipRemove_forall₂ hpq hl)
    · exact .cons h (skipRemove_forall₂ hpq (.cons h' hl))

end Rdbms
