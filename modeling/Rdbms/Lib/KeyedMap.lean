import Mathlib.Data.List.AList

/-!
# Keyed maps

A map from keys to values as the list of its entries, no key twice, in the order in which they came
in. What an entry holds can be replaced in its place, and an entry can be added when there is none
for its key.
-/

namespace Rdbms

/-- A map with entries in a fixed order. -/
abbrev KeyedMap (α β : Type) : Type := AList fun _ : α => β

namespace KeyedMap
variable {α β : Type} [DecidableEq α] {m : KeyedMap α β} {a a' : α} {b b' : β}

/-- Add an entry, unless the key has one. -/
def emplace (m : KeyedMap α β) (a : α) (b : β) : KeyedMap α β :=
  if a ∈ m then m else m.insert a b

/-- The entries whose keys satisfy `p`. -/
def filterKeys (m : KeyedMap α β) (p : α → Bool) : KeyedMap α β :=
  ⟨m.entries.filter fun s => p s.1, m.nodupKeys.sublist List.filter_sublist⟩

/-! ## Lookup -/

/-- The first entry under the key is the one that is replaced. -/
theorem kreplace_cons_self (v : β) (l : List (Sigma fun _ : α => β)) :
    List.kreplace a b (⟨a, v⟩ :: l) = ⟨a, b⟩ :: l :=
  List.lookmap_cons_some _ _ (if_pos rfl)

/-- An entry under another key stays, and the rest is searched. -/
theorem kreplace_cons_ne (hne : a ≠ a') (v : β) (l : List (Sigma fun _ : α => β)) :
    List.kreplace a b (⟨a', v⟩ :: l) = ⟨a', v⟩ :: l.kreplace a b :=
  List.lookmap_cons_none _ _ (if_neg hne)

/-- A key that is there is found with its new value. -/
theorem dlookup_kreplace_self {l : List (Sigma fun _ : α => β)} (h : a ∈ l.keys) :
    (l.kreplace a b).dlookup a = some b := by
  induction l with
  | nil => exact nomatch h
  | cons s l ih =>
    obtain ⟨k, v⟩ := s
    by_cases hk : a = k
    · subst hk
      rw [kreplace_cons_self, List.dlookup_cons_eq]
    · rw [kreplace_cons_ne hk, List.dlookup_cons_ne _ _ hk]
      exact ih ((List.mem_cons.1 h).resolve_left hk)

/-- Another key is found as before. -/
theorem dlookup_kreplace_ne {l : List (Sigma fun _ : α => β)} (hne : a' ≠ a) :
    (l.kreplace a b).dlookup a' = l.dlookup a' := by
  induction l with
  | nil => rfl
  | cons s l ih =>
    obtain ⟨k, v⟩ := s
    by_cases hk : a = k
    · subst hk
      rw [kreplace_cons_self, List.dlookup_cons_ne _ _ hne, List.dlookup_cons_ne _ _ hne]
    · rw [kreplace_cons_ne hk]
      by_cases hk' : a' = k
      · subst hk'
        rw [List.dlookup_cons_eq, List.dlookup_cons_eq]
      · rw [List.dlookup_cons_ne _ _ hk', List.dlookup_cons_ne _ _ hk', ih]

/-- `replace` gives a key that is there its new value. -/
theorem lookup_replace_self (h : m.lookup a ≠ none) : (m.replace a b).lookup a = some b :=
  dlookup_kreplace_self (AList.mem_keys.1 (by rwa [Ne, AList.lookup_eq_none, not_not] at h))

/-- `replace` leaves the other keys alone. -/
theorem lookup_replace_ne (hne : a' ≠ a) : (m.replace a b).lookup a' = m.lookup a' :=
  dlookup_kreplace_ne hne

/-- A value that is replaced by itself changes nothing. -/
theorem replace_eq_self (h : m.lookup a = some b) : m.replace a b = m :=
  AList.ext (List.kreplace_self m.nodupKeys (List.of_mem_dlookup h))

/-- After `emplace` the key has its old value, or the new one when it had none. -/
theorem lookup_emplace_self : (m.emplace a b).lookup a = some ((m.lookup a).getD b) := by
  unfold emplace
  split_ifs with h
  · obtain ⟨v, hv⟩ := Option.isSome_iff_exists.1 (AList.lookup_isSome.2 h)
    rw [hv, Option.getD_some]
  · rw [AList.lookup_insert, AList.lookup_eq_none.2 h, Option.getD_none]

/-- `emplace` leaves the other keys alone. -/
theorem lookup_emplace_ne (hne : a' ≠ a) : (m.emplace a b).lookup a' = m.lookup a' := by
  unfold emplace
  split_ifs
  · rfl
  · exact AList.lookup_insert_ne hne

/-- `emplace` adds its key and no other. -/
theorem mem_emplace : a' ∈ m.emplace a b ↔ a' = a ∨ a' ∈ m := by
  unfold emplace
  split_ifs with h
  · refine ⟨.inr, ?_⟩
    rintro (rfl | hmem)
    · exact h
    · exact hmem
  · exact AList.mem_insert m

/-! ## All entries -/

/-- Every entry satisfies `P`. -/
def All (P : β → Prop) (m : KeyedMap α β) : Prop := ∀ a b, m.lookup a = some b → P b

/-- Every property holds of the values of an empty map. -/
theorem all_empty (P : β → Prop) : All P (∅ : KeyedMap α β) := fun _ _ h => nomatch h

/-- A property of all values is kept when the new one has it. -/
theorem All.emplace {P : β → Prop} (h : All P m) (hb : P b) : All P (m.emplace a b) := by
  intro a' b' hl
  by_cases hne : a' = a
  · subst hne
    rw [lookup_emplace_self, Option.some.injEq] at hl
    cases hold : m.lookup a' with
    | none =>
      rw [hold, Option.getD_none] at hl
      exact hl ▸ hb
    | some v =>
      rw [hold, Option.getD_some] at hl
      exact hl ▸ h a' v hold
  · exact h a' b' ((lookup_emplace_ne hne).symm.trans hl)

/-- A property of all values is kept when one is replaced by another that has it. -/
theorem All.replace {P : β → Prop} (h : All P m) (hb : P b) : All P (m.replace a b) := by
  intro a' b' hl
  by_cases hne : a' = a
  · subst hne
    have hmem : m.lookup a' ≠ none := fun hnone => by
      have hout : a' ∉ m.replace a' b := by rwa [AList.mem_replace, ← AList.lookup_eq_none]
      rw [AList.lookup_eq_none.2 hout] at hl
      cases hl
    rw [lookup_replace_self hmem, Option.some.injEq] at hl
    exact hl ▸ hb
  · exact h a' b' ((lookup_replace_ne hne).symm.trans hl)

omit [DecidableEq α] in
/-- A filter that every key passes changes nothing. -/
theorem filterKeys_eq_self {p : α → Bool} (h : ∀ a ∈ m, p a = true) : m.filterKeys p = m := by
  refine AList.ext (List.filter_eq_self.2 fun s hs => h s.1 ?_)
  exact AList.mem_keys.2 (List.mem_map_of_mem hs)

end KeyedMap

end Rdbms
