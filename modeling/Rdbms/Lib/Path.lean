import Mathlib.Data.List.Basic

/-!
# Linked paths in a store

A store `rd` maps links to cells, and a cell has an outgoing link `nx`. `Path rd nx i l j` walks
from the link `i` through the cells `l` to the link `j`. A walk that ends at a link that names no
cell is determined by its start, and it visits no cell twice. `Visits rd nx i k` says that the walk
from `i` comes to the link `k` and reads a cell there.
-/

namespace Rdbms
variable {ι α : Type*}

/-- The cells from the link `i` up to the link `j`. -/
inductive Path (rd : ι → Option α) (nx : α → ι) : ι → List α → ι → Prop
  | nil {i : ι} : Path rd nx i [] i
  | cons {i j : ι} {a : α} {l : List α} : rd i = some a → Path rd nx (nx a) l j →
      Path rd nx i (a :: l) j

/-- The links at which the walk from the link `i` reads a cell. -/
inductive Visits (rd : ι → Option α) (nx : α → ι) : ι → ι → Prop
  | here {i : ι} {a : α} : rd i = some a → Visits rd nx i i
  | next {i k : ι} {a : α} : rd i = some a → Visits rd nx (nx a) k → Visits rd nx i k

namespace Path
variable {rd rd' : ι → Option α} {nx nx' : α → ι} {i j k : ι} {a : α} {l m : List α}

/-- An empty path ends where it starts. -/
@[simp] theorem nil_iff : Path rd nx i [] j ↔ i = j :=
  ⟨fun h => by cases h; rfl, fun h => h ▸ .nil⟩

/-- The first cell of a path is read at its start, and the rest follows its link. -/
@[simp] theorem cons_iff : Path rd nx i (a :: l) j ↔ rd i = some a ∧ Path rd nx (nx a) l j :=
  ⟨fun h => by cases h with | cons h1 h2 => exact ⟨h1, h2⟩, fun h => .cons h.1 h.2⟩

/-- Two paths in sequence. -/
theorem append (h1 : Path rd nx i l j) (h2 : Path rd nx j m k) : Path rd nx i (l ++ m) k := by
  induction h1 with
  | nil => exact h2
  | cons h _ ih => exact .cons h (ih h2)

/-- A path splits at every point of its cells. -/
theorem of_append : ∀ {l : List α} {i : ι}, Path rd nx i (l ++ m) k →
    ∃ j, Path rd nx i l j ∧ Path rd nx j m k
  | [], i, h => ⟨i, .nil, h⟩
  | _ :: _, _, h => by
    cases h with
    | cons ha h =>
      obtain ⟨j, h1, h2⟩ := of_append h
      exact ⟨j, .cons ha h1, h2⟩

/-- A path can be cut at every cell. -/
theorem append_iff : Path rd nx i (l ++ m) k ↔ ∃ j, Path rd nx i l j ∧ Path rd nx j m k :=
  ⟨of_append, fun ⟨_, h1, h2⟩ => h1.append h2⟩

/-- Every cell of a path is read at some link. -/
theorem exists_read (h : Path rd nx i l j) (ha : a ∈ l) : ∃ k, rd k = some a := by
  induction h with
  | nil => cases ha
  | cons h _ ih =>
    rcases List.mem_cons.1 ha with rfl | ha
    · exact ⟨_, h⟩
    · exact ih ha

/-- A path only depends on the reads of its own cells. -/
theorem congr (h : Path rd nx i l j) (hrd : ∀ k, ∀ a ∈ l, rd k = some a → rd' k = some a) :
    Path rd' nx i l j := by
  induction h with
  | nil => exact .nil
  | cons h _ ih =>
    exact .cons (hrd _ _ (.head _) h) (ih fun k a ha => hrd k a (.tail _ ha))

/-- A path whose cells are read rewritten, with the same links. -/
theorem map {g : α → α} (h : Path rd nx i l j) (hrd : ∀ k, ∀ a ∈ l, rd k = some a → rd' k = some (g a))
    (hnx : ∀ a, nx (g a) = nx a) : Path rd' nx i (l.map g) j := by
  induction h with
  | nil => exact .nil
  | cons h _ ih =>
    refine .cons (hrd _ _ (.head _) h) ?_
    rw [hnx]
    exact ih fun k a ha => hrd k a (.tail _ ha)

/-- A path that ends nowhere is the only one from its start. -/
theorem unique (h : Path rd nx i l j) (hj : rd j = none) (h' : Path rd nx i m k)
    (hk : rd k = none) : l = m ∧ j = k := by
  induction h generalizing m with
  | nil =>
    cases h' with
    | nil => exact ⟨rfl, rfl⟩
    | cons h _ => rw [hj] at h; cases h
  | cons h _ ih =>
    cases h' with
    | nil => rw [hk] at h; cases h
    | cons h' hp =>
      obtain rfl := Option.some.inj (h.symm.trans h')
      obtain ⟨rfl, rfl⟩ := ih hj hp
      exact ⟨rfl, rfl⟩

/-- A path that ends nowhere cannot pass through its own start again. -/
theorem not_mem_of_cons (h : Path rd nx i (a :: l) j) (hj : rd j = none)
    (hrd : ∀ k, rd k = some a → k = i) : a ∉ l := by
  intro ha
  obtain ⟨l1, l2, rfl⟩ := List.append_of_mem ha
  obtain ⟨k, h1, h2⟩ := (append_iff (l := a :: l1) (m := a :: l2)).1 h
  obtain rfl : k = i := by
    cases h2 with | cons hk _ => exact hrd _ hk
  -- the rest of the path is also a path from the start, so both have the same length
  have := congrArg List.length (unique h hj h2 hj).1
  simp at this
  omega

/-- Splice a cell `r` after the cell `p`, which is rewritten to `p'` so that it links to `r`. -/
theorem splice {p p' r : α} {kp kr : ι} {l1 l2 : List α} (h : Path rd nx i (l1 ++ p :: l2) j)
    (hp : ∀ k, rd k = some p → k = kp)
    (h1 : ∀ k, ∀ a ∈ l1, rd k = some a → rd' k = some a)
    (h2 : ∀ k, ∀ a ∈ l2, rd k = some a → rd' k = some a)
    (hp' : rd' kp = some p') (hlink : nx p' = kr) (hr : rd' kr = some r) (hnext : nx r = nx p) :
    Path rd' nx i (l1 ++ p' :: r :: l2) j := by
  obtain ⟨k, ha, hb⟩ := of_append h
  cases hb with
  | cons hpk hb =>
    obtain rfl := hp _ hpk
    refine (ha.congr h1).append (.cons hp' (.cons (hlink ▸ hr) ?_))
    rw [hnext]
    exact hb.congr h2

/-- Rewrite the cell `p` to `p'` without changing where it links to. -/
theorem rewrite {p p' : α} {kp : ι} {l1 l2 : List α} (h : Path rd nx i (l1 ++ p :: l2) j)
    (hp : ∀ k, rd k = some p → k = kp)
    (h1 : ∀ k, ∀ a ∈ l1, rd k = some a → rd' k = some a)
    (h2 : ∀ k, ∀ a ∈ l2, rd k = some a → rd' k = some a)
    (hp' : rd' kp = some p') (hnext : nx p' = nx p) : Path rd' nx i (l1 ++ p' :: l2) j := by
  obtain ⟨k, ha, hb⟩ := of_append h
  cases hb with
  | cons hpk hb =>
    obtain rfl := hp _ hpk
    refine (ha.congr h1).append (.cons hp' ?_)
    rw [hnext]
    exact hb.congr h2

/-- In a store that reads the cells of a path as before, the walk from its start visits nothing
new. -/
theorem visits_congr (h : Path rd nx i l j) (hj : rd' j = none)
    (hrd : ∀ k, ∀ a ∈ l, rd k = some a → rd' k = some a) (hv : Visits rd' nx i k) :
    Visits rd nx i k := by
  induction h with
  | nil =>
    cases hv with
    | here hread | next hread => rw [hj] at hread; cases hread
  | cons h _ ih =>
    cases hv with
    | here _ => exact .here h
    | next hread hv =>
      obtain rfl := Option.some.inj ((hrd _ _ (.head _) h).symm.trans hread)
      exact .next h (ih hj (fun k a ha => hrd k a (.tail _ ha)) hv)

end Path

namespace Visits
variable {rd : ι → Option α} {nx : α → ι} {i k : ι} {a : α}

/-- A walk visits links that name a cell. -/
theorem exists_read (h : Visits rd nx i k) : ∃ a, rd k = some a := by
  induction h with
  | here h => exact ⟨_, h⟩
  | next _ _ ih => exact ih

/-- The first link of a walk names a cell. -/
theorem exists_read_start (h : Visits rd nx i k) : ∃ a, rd i = some a := by
  cases h with
  | here h | next h _ => exact ⟨_, h⟩

/-- A walk visits its start, and what the walk from there on visits. -/
theorem iff_of_read (h : rd i = some a) : Visits rd nx i k ↔ k = i ∨ Visits rd nx (nx a) k := by
  constructor
  · intro hv
    cases hv with
    | here _ => exact .inl rfl
    | next hread hv =>
      obtain rfl := Option.some.inj (h.symm.trans hread)
      exact .inr hv
  · rintro (rfl | hv)
    · exact .here h
    · exact .next h hv

end Visits

end Rdbms
