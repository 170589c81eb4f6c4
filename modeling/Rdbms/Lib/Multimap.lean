import Mathlib.Data.List.Forall2
import Mathlib.Data.List.Perm.Basic
import Mathlib.Algebra.BigOperators.Group.List.Basic
import Rdbms.Lib.Sorted

/-!
# Ordered multimaps

The meaning of an index: every key that occurs has the non-empty list of its values, and the keys
are listed in increasing order. The first value of a key stays in front; a later value goes
directly behind it, so the rest of the list has the newest value first. What an index answers is
`values` for a point lookup and `between` for a range, and `pairs` is everything it holds.
-/

namespace Rdbms

/-- A key with its values: the first one it got and the later ones, newest first. -/
structure Entry (κ ν : Type*) where
  key : κ
  first : ν
  rest : List ν
deriving DecidableEq

namespace Entry
variable {κ ν : Type*}

/-- All values of the key. -/
def values (e : Entry κ ν) : List ν := e.first :: e.rest

/-- The key paired with each of its values. -/
def pairs (e : Entry κ ν) : List (κ × ν) := e.values.map (e.key, ·)

/-- The entry with one more value. -/
def add (e : Entry κ ν) (v : ν) : Entry κ ν := { e with rest := v :: e.rest }

/-- A value that is added does not change the key. -/
@[simp] theorem key_add (e : Entry κ ν) (v : ν) : (e.add v).key = e.key := rfl

/-- The added value is among the values. -/
theorem values_add (e : Entry κ ν) (v : ν) : (e.add v).values.Perm (v :: e.values) := .swap ..

/-- The added value is among the pairs. -/
theorem pairs_add (e : Entry κ ν) (v : ν) : (e.add v).pairs.Perm ((e.key, v) :: e.pairs) :=
  (e.values_add v).map _

/-- The pairs of an entry are its key with each value. -/
theorem mem_pairs {e : Entry κ ν} {p : κ × ν} : p ∈ e.pairs ↔ p.1 = e.key ∧ p.2 ∈ e.values := by
  obtain ⟨k, v⟩ := p
  simp [pairs, eq_comm, and_comm]

end Entry

/-- Entries in increasing order of their keys. -/
structure Multimap (κ ν : Type*) [LT κ] where
  entries : List (Entry κ ν)
  sorted : SortedBy Entry.key entries

namespace Multimap
variable {κ ν : Type*} [LinearOrder κ]

instance : Inhabited (Multimap κ ν) := ⟨⟨[], .nil⟩⟩

/-- The multimap without any key. -/
def empty : Multimap κ ν := ⟨[], .nil⟩

/-- The keys in increasing order. -/
def keys (m : Multimap κ ν) : List κ := m.entries.map (·.key)

/-- The values of a key, none for a key that does not occur. -/
def values (m : Multimap κ ν) (k : κ) : List ν :=
  ((m.entries.find? (·.key = k)).map (·.values)).getD []

/-- The values of the keys from `b` to `e`, in the order of the keys. -/
def between (m : Multimap κ ν) (b e : κ) : List ν :=
  (m.entries.filter fun x => b ≤ x.key ∧ x.key ≤ e).flatMap (·.values)

/-- Everything the multimap holds. -/
def pairs (m : Multimap κ ν) : List (κ × ν) := m.entries.flatMap (·.pairs)

/-! ## Insertion -/

/-- Insert a value under a key. -/
def insert (m : Multimap κ ν) (k : κ) (v : ν) : Multimap κ ν :=
  ⟨insertSorted Entry.key ⟨k, v, []⟩ (·.add v) m.entries, sorted_insertSorted m.sorted fun _ => rfl⟩

/-- Where a pair is inserted. -/
theorem entries_insert {m : Multimap κ ν} {k : κ} {v : ν} :
    (m.insert k v).entries = insertSorted Entry.key ⟨k, v, []⟩ (·.add v) m.entries := rfl

/-- A new key gets its place between the smaller and the larger keys. -/
theorem insert_new {m : Multimap κ ν} {k : κ} {v : ν} {m1 m2 : List (Entry κ ν)}
    (h : m.entries = m1 ++ m2) (h1 : ∀ e ∈ m1, e.key < k) (h2 : ∀ e ∈ m2, k < e.key) :
    (m.insert k v).entries = m1 ++ ⟨k, v, []⟩ :: m2 := by
  rw [entries_insert, h]
  exact insertSorted_new h1 h2

/-- A key that occurs gets one more value. -/
theorem insert_mem {m : Multimap κ ν} {v : ν} {e : Entry κ ν} {m1 m2 : List (Entry κ ν)}
    (h : m.entries = m1 ++ e :: m2) : (m.insert e.key v).entries = m1 ++ e.add v :: m2 := by
  have hs := m.sorted
  rw [h] at hs
  rw [entries_insert, h]
  exact insertSorted_mem hs.around.1 rfl

/-- Where an insertion puts the value. -/
theorem insert_cases (m : Multimap κ ν) (k : κ) (v : ν) :
    (∃ m1 e m2, m.entries = m1 ++ e :: m2 ∧ e.key = k ∧
      (m.insert k v).entries = m1 ++ e.add v :: m2) ∨
    ∃ m1 m2, m.entries = m1 ++ m2 ∧ (∀ e ∈ m1, e.key < k) ∧ (∀ e ∈ m2, k < e.key) ∧
      (m.insert k v).entries = m1 ++ ⟨k, v, []⟩ :: m2 := by
  rw [entries_insert]
  exact insertSorted_cases m.sorted ⟨k, v, []⟩ _

/-- Insertion adds one pair. -/
theorem pairs_insert {m : Multimap κ ν} {k : κ} {v : ν} :
    (m.insert k v).pairs.Perm ((k, v) :: m.pairs) := by
  unfold pairs
  rw [entries_insert]
  rcases insertSorted_cases m.sorted ⟨k, v, []⟩ (·.add v) with
    ⟨m1, e, m2, hm, rfl, hins⟩ | ⟨m1, m2, hm, -, -, hins⟩
  · rw [hins, hm]
    simp only [List.flatMap_append, List.flatMap_cons]
    exact (((e.pairs_add v).append_right _).append_left _).trans List.perm_middle
  · rw [hins, hm]
    simp only [List.flatMap_append, List.flatMap_cons]
    exact List.perm_middle

/-- Insert pairs one after the other, with `pk` until there is one whose key occurs already. Whether
all of them are in, and what there is. -/
def insertAll (pk : Bool) (m : Multimap κ ν) : List (κ × ν) → Bool × Multimap κ ν
  | [] => (true, m)
  | (k, v) :: pairs =>
    if pk = true ∧ k ∈ m.keys then (false, m) else (m.insert k v).insertAll pk pairs

/-! ## Lookup -/

/-- The values of a key that has an entry. -/
theorem values_of_mem {m : Multimap κ ν} {e : Entry κ ν} (h : e ∈ m.entries) :
    m.values e.key = e.values := by
  unfold values
  cases hf : m.entries.find? (·.key = e.key) with
  | none => simpa using List.find?_eq_none.1 hf e h
  | some x =>
    have hk : x.key = e.key := by simpa using List.find?_some hf
    rw [m.sorted.eq_of_key (List.mem_of_find?_eq_some hf) h hk]
    rfl

/-- A key without an entry has no values. -/
theorem values_of_not_mem {m : Multimap κ ν} {k : κ} (h : ∀ e ∈ m.entries, e.key ≠ k) :
    m.values k = [] := by
  unfold values
  rw [List.find?_eq_none.2 (by simpa using h)]
  rfl

/-- A range is answered key by key. -/
theorem between_eq_flatMap_keys (m : Multimap κ ν) (b e : κ) :
    m.between b e = (m.keys.filter fun k => b ≤ k ∧ k ≤ e).flatMap m.values := by
  rw [between, keys, List.filter_map, List.flatMap_map]
  refine List.flatMap_congr fun x hx => ?_
  exact (values_of_mem (List.mem_of_mem_filter hx)).symm

/-- The values of a key are what the pairs with that key hold. -/
theorem values_eq_pairs (m : Multimap κ ν) (k : κ) :
    m.values k = (m.pairs.filter (·.1 = k)).map (·.2) := by
  have hall : ∀ e : Entry κ ν, e.pairs.filter (·.1 = k) = if e.key = k then e.pairs else [] := by
    intro e
    split_ifs with hk
    · exact List.filter_eq_self.2 fun p hp => by simpa [hk] using (Entry.mem_pairs.1 hp).1
    · exact List.filter_eq_nil_iff.2 fun p hp => by simpa [(Entry.mem_pairs.1 hp).1] using hk
  rw [pairs, List.filter_flatMap]
  simp only [hall]
  by_cases h : ∃ e ∈ m.entries, e.key = k
  · obtain ⟨e, he, rfl⟩ := h
    rw [values_of_mem he]
    obtain ⟨m1, m2, hm⟩ := List.append_of_mem he
    have hs := m.sorted
    rw [hm] at hs
    have h1 : ∀ x ∈ m1, x.key ≠ e.key := fun x hx => (hs.around.1 x hx).ne
    have h2 : ∀ x ∈ m2, x.key ≠ e.key := fun x hx => (hs.around.2 x hx).ne'
    have nil : ∀ l : List (Entry κ ν), (∀ x ∈ l, x.key ≠ e.key) →
        l.flatMap (fun x => if x.key = e.key then x.pairs else []) = [] := by
      intro l hl
      exact List.flatMap_eq_nil_iff.2 fun x hx => if_neg (hl x hx)
    rw [hm, List.flatMap_append, List.flatMap_cons, nil m1 h1, nil m2 h2]
    simp [Entry.pairs, Function.comp_def]
  · push Not at h
    rw [values_of_not_mem h, List.flatMap_eq_nil_iff.2 fun x hx => if_neg (h x hx)]
    rfl

/-- What lies between two keys is what the pairs with keys between them hold. -/
theorem between_eq_pairs (m : Multimap κ ν) (b e : κ) :
    m.between b e = (m.pairs.filter fun p => b ≤ p.1 ∧ p.1 ≤ e).map (·.2) := by
  rw [between, pairs]
  induction m.entries with
  | nil => rfl
  | cons x entries ih =>
    rw [List.flatMap_cons, List.filter_append, List.map_append, ← ih, List.filter_cons]
    have hkey : ∀ p ∈ x.pairs, p.1 = x.key := fun p hp => (Entry.mem_pairs.1 hp).1
    split_ifs with hx
    · have hall : x.pairs.filter (fun p => b ≤ p.1 ∧ p.1 ≤ e) = x.pairs :=
        List.filter_eq_self.2 fun p hp => by rwa [hkey p hp]
      rw [hall, List.flatMap_cons, Entry.pairs, List.map_map]
      exact congrArg (· ++ _) (List.map_id _).symm
    · have hnone : x.pairs.filter (fun p => b ≤ p.1 ∧ p.1 ≤ e) = [] :=
        List.filter_eq_nil_iff.2 fun p hp => by rwa [hkey p hp]
      rw [hnone, List.map_nil, List.nil_append]

/-- The pairs are in the order of the keys. -/
theorem pairs_sorted (m : Multimap κ ν) : m.pairs.Pairwise fun p q => p.1 ≤ q.1 := by
  rw [pairs, List.pairwise_flatMap]
  refine ⟨fun e _ => ?_, m.sorted.imp fun {e e'} hlt p hp q hq => ?_⟩
  · refine List.pairwise_of_forall_mem_list fun p hp q hq => ?_
    rw [(Entry.mem_pairs.1 hp).1, (Entry.mem_pairs.1 hq).1]
  · rw [(Entry.mem_pairs.1 hp).1, (Entry.mem_pairs.1 hq).1]
    exact hlt.le

/-- The pairs of a key are its values. -/
theorem mem_pairs_iff {m : Multimap κ ν} {k : κ} {v : ν} : (k, v) ∈ m.pairs ↔ v ∈ m.values k := by
  rw [values_eq_pairs]
  simp

/-- The keys are those that have values. -/
theorem values_eq_nil_iff {m : Multimap κ ν} {k : κ} : m.values k = [] ↔ k ∉ m.keys := by
  constructor
  · intro h hk
    obtain ⟨e, he, rfl⟩ := List.mem_map.1 hk
    rw [values_of_mem he] at h
    exact List.cons_ne_nil _ _ h
  · exact fun h => values_of_not_mem fun e he hk => h (hk ▸ List.mem_map_of_mem he)

/-- A range has the values of each key in it. -/
theorem length_values_le_between (m : Multimap κ ν) {k b e : κ} (hb : b ≤ k) (he : k ≤ e) :
    (m.values k).length ≤ (m.between b e).length := by
  rw [values_eq_pairs, between_eq_pairs, List.length_map, List.length_map]
  refine (List.monotone_filter_right m.pairs fun p hp => ?_).length_le
  obtain rfl : p.1 = k := of_decide_eq_true hp
  exact decide_eq_true ⟨hb, he⟩

/-- A range has at least one value for each key in it. -/
theorem length_keys_le_between (m : Multimap κ ν) (b e : κ) :
    (m.keys.filter fun k => b ≤ k ∧ k ≤ e).length ≤ (m.between b e).length := by
  rw [between_eq_flatMap_keys, List.length_flatMap]
  refine le_trans (List.length_map _).ge (List.length_le_sum_of_one_le _ fun i hi => ?_)
  obtain ⟨k, hk, rfl⟩ := List.mem_map.1 hi
  refine List.length_pos_of_ne_nil fun hnil => ?_
  exact values_eq_nil_iff.1 hnil (List.mem_of_mem_filter hk)

/-- A map without keys is empty. -/
theorem eq_empty_iff {m : Multimap κ ν} : m = empty ↔ m.keys = [] := by
  constructor
  · rintro rfl
    rfl
  · intro h
    obtain ⟨entries, sorted⟩ := m
    obtain rfl : entries = [] := List.map_eq_nil_iff.1 h
    rfl

/-! ## Deletion -/

/-- Take out a key with its values. -/
def erase (m : Multimap κ ν) (k : κ) : Multimap κ ν :=
  ⟨m.entries.filter (·.key ≠ k), m.sorted.filter _⟩

/-- Erasing a key takes out its entry. -/
theorem erase_mem {m : Multimap κ ν} {e : Entry κ ν} {m1 m2 : List (Entry κ ν)}
    (h : m.entries = m1 ++ e :: m2) : (m.erase e.key).entries = m1 ++ m2 := by
  have hs := m.sorted
  rw [h] at hs
  have h1 : m1.filter (·.key ≠ e.key) = m1 :=
    List.filter_eq_self.2 fun x hx => by simpa using (hs.around.1 x hx).ne
  have h2 : m2.filter (·.key ≠ e.key) = m2 :=
    List.filter_eq_self.2 fun x hx => by simpa using (hs.around.2 x hx).ne'
  show m.entries.filter (·.key ≠ e.key) = m1 ++ m2
  rw [h, List.filter_append, h1, List.filter_cons_of_neg (by simp), h2]

/-- Erasing a key that is not there changes nothing. -/
theorem erase_of_not_mem {m : Multimap κ ν} {k : κ} (h : k ∉ m.keys) : m.erase k = m := by
  obtain ⟨entries, sorted⟩ := m
  have hall : entries.filter (·.key ≠ k) = entries :=
    List.filter_eq_self.2 fun e he => decide_eq_true fun hk => h (List.mem_map.2 ⟨e, he, hk⟩)
  simp only [erase, hall]

/-! ## Representation -/

section
variable {α : Type*} {key : α → κ} {R R' : α → Entry κ ν → Prop} {c c1 c2 : List α} {a a' : α}
  {m : Multimap κ ν} {k : κ} {v : ν}

/-- A list of cells represents a multimap cell by cell. -/
def Represented (R : α → Entry κ ν → Prop) (c : List α) (m : Multimap κ ν) : Prop :=
  List.Forall₂ R c m.entries

omit [LinearOrder κ] in
/-- The entries of the cells of two lists, one after the other. -/
theorem forall₂_append_left : ∀ {c1 : List α} {E : List (Entry κ ν)},
    List.Forall₂ R (c1 ++ c2) E →
      ∃ E1 E2, E = E1 ++ E2 ∧ List.Forall₂ R c1 E1 ∧ List.Forall₂ R c2 E2
  | [], E, h => ⟨[], E, rfl, .nil, h⟩
  | _ :: _, _, .cons ha h => by
    obtain ⟨E1, E2, rfl, h1, h2⟩ := forall₂_append_left h
    exact ⟨_ :: E1, E2, rfl, .cons ha h1, h2⟩

omit [LinearOrder κ] in
/-- The entry of a cell. -/
theorem forall₂_exists {E : List (Entry κ ν)} (h : List.Forall₂ R c E) (ha : a ∈ c) :
    ∃ e ∈ E, R a e := by
  obtain ⟨c1, c2, rfl⟩ := List.append_of_mem ha
  obtain ⟨E1, E2, rfl, -, h2⟩ := forall₂_append_left h
  cases h2 with
  | cons hR _ => exact ⟨_, by simp, hR⟩

omit [LinearOrder κ] in
/-- The keys of the entries are those of the cells. -/
theorem forall₂_keys (hR : ∀ a e, R a e → key a = e.key) {E : List (Entry κ ν)}
    (h : List.Forall₂ R c E) : E.map (·.key) = c.map key := by
  induction h with
  | nil => rfl
  | cons ha _ ih => rw [List.map_cons, List.map_cons, ih, hR _ _ ha]

/-- The cells have the keys of the map, in their order. -/
theorem Represented.keys_eq (hR : ∀ a e, R a e → key a = e.key) (h : Represented R c m) :
    m.keys = c.map key :=
  forall₂_keys hR h

omit [LinearOrder κ] in
/-- What holds of the keys of the entries holds of the keys of the cells. -/
theorem forall_key_iff (hR : ∀ a e, R a e → key a = e.key) {E : List (Entry κ ν)}
    (h : List.Forall₂ R c E) (P : κ → Prop) : (∀ e ∈ E, P e.key) ↔ ∀ a ∈ c, P (key a) := by
  have := forall₂_keys hR h
  rw [← List.forall_mem_map (f := key), ← this, List.forall_mem_map]

/-- The values of the key of a cell. -/
theorem Represented.values_of_mem (hR : ∀ a e, R a e → key a = e.key) (h : Represented R c m)
    (ha : a ∈ c) : ∃ e, R a e ∧ m.values (key a) = e.values := by
  obtain ⟨e, he, hae⟩ := forall₂_exists h ha
  exact ⟨e, hae, by rw [hR a e hae, Multimap.values_of_mem he]⟩

/-- A key that no cell has has no values. -/
theorem Represented.values_of_not_mem (hR : ∀ a e, R a e → key a = e.key)
    (h : Represented R c m) (hk : ∀ a ∈ c, key a ≠ k) : m.values k = [] :=
  Multimap.values_of_not_mem ((forall_key_iff hR h (· ≠ k)).2 hk)

/-- A new cell between the smaller and the larger ones is an insertion of its key. -/
theorem Represented.insert_new (hR : ∀ a e, R a e → key a = e.key)
    (h : Represented R (c1 ++ c2) m) (h1 : ∀ a ∈ c1, key a < k) (h2 : ∀ a ∈ c2, k < key a)
    (hRR' : ∀ a e, R a e → R' a e) (ha : R' a ⟨k, v, []⟩) :
    Represented R' (c1 ++ a :: c2) (m.insert k v) := by
  obtain ⟨E1, E2, hE, hE1, hE2⟩ := forall₂_append_left h
  rw [Represented, Multimap.insert_new hE ((forall_key_iff hR hE1 (· < k)).2 h1)
    ((forall_key_iff hR hE2 (k < ·)).2 h2)]
  exact List.rel_append (hE1.imp hRR') (.cons ha (hE2.imp hRR'))

/-- A list without the cell of a key. -/
theorem Represented.erase (hR : ∀ a e, R a e → key a = e.key) (h : Represented R (c1 ++ a :: c2) m)
    (hk : key a = k) : Represented R (c1 ++ c2) (m.erase k) := by
  obtain ⟨E1, E2, hE, hE1, hE2⟩ := forall₂_append_left h
  cases hE2 with
  | @cons _ e _ E2 hae hE2 =>
    obtain rfl : e.key = k := (hR a e hae).symm.trans hk
    rw [Represented, Multimap.erase_mem hE]
    exact List.rel_append hE1 hE2

/-- A smaller key gets a cell in front. -/
theorem Represented.insert_front (hR : ∀ a e, R a e → key a = e.key) (h : Represented R c m)
    (hgt : ∀ a ∈ c, k < key a) (hRR' : ∀ a e, R a e → R' a e) (ha : R' a ⟨k, v, []⟩) :
    Represented R' (a :: c) (m.insert k v) :=
  insert_new hR (show Represented R ([] ++ c) m from h) (by simp) hgt hRR' ha

omit [LinearOrder κ] in
/-- A cell replaced by one that holds the same. -/
theorem forall₂_rewrite {E : List (Entry κ ν)} (h : List.Forall₂ R (c1 ++ a :: c2) E)
    (ha : ∀ e, R a e → R a' e) : List.Forall₂ R (c1 ++ a' :: c2) E := by
  obtain ⟨E1, E2, rfl, hE1, hE2⟩ := forall₂_append_left h
  cases hE2 with
  | cons hae hE2 => exact List.rel_append hE1 (.cons (ha _ hae) hE2)

/-- A cell rewritten to hold one more value is an insertion under its key. -/
theorem Represented.insert_mem (hR : ∀ a e, R a e → key a = e.key)
    (h : Represented R (c1 ++ a :: c2) m) (hk : key a = k) (hRR' : ∀ a e, R a e → R' a e)
    (ha : ∀ e, R a e → R' a' (e.add v)) :
    Represented R' (c1 ++ a' :: c2) (m.insert k v) := by
  obtain ⟨E1, E2, hE, hE1, hE2⟩ := forall₂_append_left h
  cases hE2 with
  | @cons _ e _ E2 hae hE2 =>
    obtain rfl : e.key = k := (hR a e hae).symm.trans hk
    rw [Represented, Multimap.insert_mem hE]
    exact List.rel_append (hE1.imp hRR') (.cons (ha e hae) (hE2.imp hRR'))

end

end Multimap

end Rdbms
