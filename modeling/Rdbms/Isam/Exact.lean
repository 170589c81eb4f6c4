import Rdbms.Isam.Ledger

/-!
# Clean runs

A removal is clean when the key is not on its chain, or it takes all records of the key, unlinks no
page behind the second one and does not empty the first page (`Clean`). Along a load of distinct keys,
any insertions and clean removals every page has records and every key is in the one bucket that it is
routed to, so the buckets have exactly the ledger (`CleanRun.exact`), and the index answers as the
multimap with these pairs (`exact_of_run`).
-/

namespace Rdbms

namespace ISAM
variable {κ : Type} [LinearOrder κ] {isam isam' : ISAM κ} {P : Partition κ Int 27}
  {C : Nat → List (Int × DataPage κ)} {B : Nat → List (Entry κ Int)} {L : Multiset (κ × Int)}
  {E : List (Entry κ Int)} {k : κ} {q : Nat}

/-- The buckets have exactly the pairs `L`, on pages with records, and a key only in the bucket that
it is routed to. -/
structure Exact (isam : ISAM κ) (P : Partition κ Int 27) (C : Nat → List (Int × DataPage κ))
    (B : Nat → List (Entry κ Int)) (L : Multiset (κ × Int)) : Prop extends isam.Linked P C B where
  full : ∀ q < 27, ∀ c ∈ C q, PageOk c
  own : ∀ q < 27, ∀ e ∈ B q, P.Route (· ≤ e.key) q
  stock_eq : stock B = L

/-! ## The buckets -/

omit [LinearOrder κ] in
/-- The stock is what all entries hold. -/
theorem stock_eq_entryPairs : stock B = entryPairs ((List.range 27).flatMap B) :=
  (entryPairs_flatMap B 27).symm

omit [LinearOrder κ] in
/-- A pair in stock is one of some entry. -/
theorem mem_stock {p : κ × Int} : p ∈ stock B ↔ ∃ q < 27, ∃ e ∈ B q, p ∈ e.pairs := by
  rw [stock_eq_entryPairs, entryPairs, Multiset.mem_coe, List.flatMap_assoc]
  simp only [List.mem_flatMap, List.mem_range]

/-- Without the entries of a key, the pairs of the key are gone. -/
theorem entryPairs_filter (k : κ) (E : List (Entry κ Int)) :
    entryPairs (E.filter (·.key ≠ k)) = (entryPairs E).filter (·.1 ≠ k) := by
  induction E with
  | nil => rfl
  | cons e E ih =>
    rw [entryPairs_cons, Multiset.filter_add, ← ih]
    by_cases hk : e.key = k
    · have hnone : ((e.pairs : Multiset (κ × Int)).filter (·.1 ≠ k)) = 0 :=
        Multiset.filter_eq_nil.2 fun p hp hne => hne ((Entry.mem_pairs.1 hp).1.trans hk)
      rw [List.filter_cons_of_neg (by simpa using hk), hnone, zero_add]
    · have hall : ((e.pairs : Multiset (κ × Int)).filter (·.1 ≠ k)) = e.pairs :=
        Multiset.filter_eq_self.2 fun p hp hp1 => hk ((Entry.mem_pairs.1 hp).1.symm.trans hp1)
      rw [List.filter_cons_of_pos (by simpa using hk), entryPairs_cons, hall]

/-- The key goes from the one bucket that has it. -/
theorem stock_filter (hother : ∀ r < 27, r ≠ q → ∀ e ∈ B r, e.key ≠ k) :
    stock (Function.update B q ((B q).filter (·.key ≠ k))) = (stock B).filter (·.1 ≠ k) := by
  rw [stock_eq_entryPairs, stock_eq_entryPairs, ← entryPairs_filter, List.filter_flatMap]
  congr 1
  refine List.flatMap_congr fun r hr => ?_
  rcases eq_or_ne r q with rfl | hne
  · rw [Function.update_self]
  · rw [Function.update_of_ne hne]
    refine (List.filter_eq_self.2 fun e he => decide_eq_true ?_).symm
    exact hother r (List.mem_range.1 hr) hne e he

/-! ## Queries -/

namespace Exact

/-- Exact buckets keep to the separators. -/
theorem within (h : isam.Exact P C B L) : Within P B := by
  intro q hq e he
  have hroute := h.own q hq e he
  exact ⟨hroute.before, fun i hi hin => (not_le.1 (hroute.behind i hi hin)).le⟩

/-- When every page has records, all is seen. -/
theorem entryPairs_seenFrom (h : isam.Exact P C B L) : entryPairs (seenFrom C B 0) = L := by
  rw [← h.stock_eq, stock_eq_entryPairs, seenFrom, Nat.sub_zero, ← List.range_eq_range']
  congr 1
  refine List.flatMap_congr fun q hq => if_neg fun hv => ?_
  have hq := List.mem_range.1 hq
  obtain ⟨c, rest, hcells⟩ := List.exists_cons_of_ne_nil (h.chain_ne hq)
  have hcount := (h.full q hq c (hcells ▸ .head _)).1
  rw [hcells, vacant, List.head?_cons, Option.any_some, DataPage.isEmpty, decide_eq_true_eq] at hv
  omega

/-- `range_search` finds exactly the pairs with a key in the range. -/
theorem rangeSearch (h : isam.Exact P C B L) (lo hi : κ) :
    ∃ res, Returns (isam.rangeSearch · lo hi) (.ok res) ∧
      (res : Multiset Int) = (L.filter fun p => lo ≤ p.1 ∧ p.1 ≤ hi).map (·.2) := by
  refine ⟨_, h.toLinked.rangeSearch h.within lo hi, ?_⟩
  rw [Partition.hits_eq_pairs, ← Multiset.map_coe, ← Multiset.filter_coe]
  exact congrArg (fun s => (Multiset.filter _ s).map _) h.entryPairs_seenFrom

/-- A key is in the ledger when the bucket that it is routed to has it. -/
theorem forall_not_mem_iff (h : isam.Exact P C B L) (hroute : P.Route (· ≤ k) q) :
    (∀ v, (k, v) ∉ L) ↔ ∀ e ∈ B q, e.key ≠ k := by
  rw [← h.stock_eq]
  constructor
  · rintro hno e he rfl
    exact hno e.first (mem_stock.2 ⟨q, hroute.lt, e, he, Entry.mem_pairs.2 ⟨rfl, .head _⟩⟩)
  · intro hno v hv
    obtain ⟨r, hr, e, he, hp⟩ := mem_stock.1 hv
    obtain rfl : k = e.key := (Entry.mem_pairs.1 hp).1
    obtain rfl := hroute.unique (h.own r hr e he)
    exact hno e he rfl

/-- `search` finds some of the positions of the key, when there are any. -/
theorem search (h : isam.Exact P C B L) (k : κ) : ∃ res, Returns (isam.search · k) (.ok res) ∧
    (res : Multiset Int) ≤ (L.filter (·.1 = k)).map (·.2) ∧ (res = [] ↔ ∀ v, (k, v) ∉ L) := by
  obtain ⟨q, hdescend, hroute⟩ := h.root.descend_le k
  refine ⟨_, search_of_descend h.root.root_ne hdescend (h.buckets.chain q hroute.lt)
    (h.buckets.entries q hroute.lt), h.stock_eq ▸ firstValues_le hroute.lt k, ?_⟩
  rw [h.forall_not_mem_iff hroute]
  exact firstValues_eq_nil_iff

end Exact

/-! ## Insertion and removal -/

section
variable [IntCast κ] {sort : List (ISAMRecord κ) → List (ISAMRecord κ)}

/-- The chain of the key has no record of it, or a removal takes all of them and nothing else, and
leaves records on the first page. -/
def Clean (isam : ISAM κ) (k : κ) : Prop :=
  ∃ pos cells, Returns (isam.descend (· ≤ k) · isam.root) pos ∧ isam.Chain pos cells ∧
    ((∀ r ∈ live cells, r.key ≠ k) ∨ TakesAll k cells ∧ ¬ Unlinks k cells ∧ ¬ Empties k cells)

omit [IntCast κ] in
/-- A load leaves the buckets exact when no key is loaded twice. -/
theorem WellFormed.exact {batch : List (κ × Int)} (h : isam.WellFormed P C)
    (hpairs : P.pairs.Perm batch) (hnodup : (batch.map (·.1)).Nodup) :
    isam.Exact P C P.bucket batch where
  toLinked := h.linked
  full := h.pages
  own q hq e he := by
    obtain ⟨r, -, hroute⟩ := h.root.descend_le e.key
    exact hroute.of_nodup ((hpairs.map _).nodup_iff.2 hnodup) hq he
  stock_eq := by
    rw [← Multiset.coe_eq_coe.2 hpairs, stock_eq_entryPairs, List.range_eq_range']
    rfl

namespace Exact

omit [IntCast κ] in
/-- One bucket has been changed for a key that is routed to it. -/
theorem own_update {E' : List (Entry κ Int)} (h : isam.Exact P C B L) (hroute : P.Route (· ≤ k) q)
    (hkeys : ∀ e ∈ E', e.key = k ∨ e ∈ B q) :
    ∀ r < 27, ∀ e ∈ Function.update B q E' r, P.Route (· ≤ e.key) r := by
  intro r hr e he
  rcases Routed.update hroute hkeys r e he with he | ⟨rfl, hroute'⟩
  · exact h.own r hr e he
  · exact hroute'

omit [IntCast κ] in
/-- New pages with records take the place of a chain. -/
theorem full_update {cells' : List (Int × DataPage κ)} (h : isam.Exact P C B L)
    (hpages : ∀ c ∈ cells', PageOk c) : ∀ r < 27, ∀ c ∈ Function.update C q cells' r, PageOk c :=
  (Function.forall_update_iff C fun r cells => r < 27 → ∀ c ∈ cells, PageOk c).2
    ⟨fun _ => hpages, fun r _ => h.full r⟩

/-- One insertion. -/
theorem add (h : isam.Exact P C B L) (memory : Slots κ) (k : κ) (v : Int) :
    ∃ isam' C' B', Returns (isam.add memory · k v) (.ok [v], isam') ∧
      isam'.Exact P C' B' ((k, v) ::ₘ L) := by
  obtain ⟨q, isam', cells', E', hroute, -, hret, hrelinked, hok, hkeys, -, -, hgrown⟩ :=
    h.toLinked.add_at memory k v
  have hgrown := hgrown (h.full q hroute.lt)
  refine ⟨isam', _, _, hret, h.toLinked.relinked hroute.lt hrelinked hok,
    h.full_update hgrown.pages, h.own_update hroute hkeys, ?_⟩
  have hpairs : entryPairs E' = (k, v) ::ₘ entryPairs (B q) := Multiset.coe_eq_coe.2 hgrown.pairs
  have hstock : stock (Function.update B q E') + entryPairs (B q) = stock B + entryPairs E' :=
    stock_update hroute.lt
  rw [hpairs, Multiset.add_cons, ← Multiset.cons_add, h.stock_eq] at hstock
  exact add_right_cancel hstock

/-- One clean removal. -/
theorem remove (h : isam.Exact P C B L) (hclean : isam.Clean k) :
    ∃ res isam' C' B', Returns (isam.remove · k) (.ok res, isam') ∧
      isam'.Exact P C' B' (L.filter (·.1 ≠ k)) ∧
      ((∀ v, (k, v) ∉ L) ∧ res = [] ∧ isam' = isam ∨ ∃ v, res = [v] ∧ (k, v) ∈ L) := by
  obtain ⟨q, res, isam', cells', E', hroute, hdescend, hret, hrelinked, hok, hremoval, hpages⟩ :=
    h.toLinked.remove_pages k
  obtain ⟨pos, cells, hdescend1, hchain1, hcases⟩ := hclean
  obtain rfl := hdescend.unique hdescend1
  obtain rfl := hchain1.unique (h.buckets.chain q hroute.lt)
  have hother : ∀ r < 27, r ≠ q → ∀ e ∈ B r, e.key ≠ k := by
    rintro r hr hne e he rfl
    exact hne ((h.own r hr e he).unique hroute)
  rcases hcases with hno | ⟨htakes, hunlinks, hempties⟩
  · have hno := (forall_key_ne_iff (h.buckets.entries q hroute.lt)).1 hno
    have hnone := (h.forall_not_mem_iff hroute).2 hno
    obtain ⟨rfl, rfl⟩ := hremoval.eq_of_forall hno
    have hL : L.filter (·.1 ≠ k) = L :=
      Multiset.filter_eq_self.2 fun p hp hk => hnone p.2 (hk ▸ hp)
    exact ⟨_, _, C, B, hret, hL.symm ▸ h, .inl ⟨hnone, rfl, rfl⟩⟩
  · obtain ⟨hres, hgone⟩ := hremoval.takesAll_iff.2 htakes
    obtain rfl := (hremoval.sameBut hunlinks).eq_filter hgone
    refine ⟨res, isam', _, _, hret, ⟨h.toLinked.relinked hroute.lt hrelinked hok,
      h.full_update (hpages (h.full q hroute.lt) hempties),
      h.own_update hroute fun e he => .inr (List.mem_of_mem_filter he), ?_⟩, .inr ?_⟩
    · rw [stock_filter hother, h.stock_eq]
    · obtain ⟨v, hv, hmem⟩ := hremoval.mem_pairs hres
      obtain ⟨e, he, hp⟩ := List.mem_flatMap.1 hmem
      exact ⟨v, hv, h.stock_eq ▸ mem_stock.2 ⟨q, hroute.lt, e, he, hp⟩⟩

end Exact

/-! ## Runs -/

/-- A load of distinct keys into a new index, followed by insertions and clean removals: the ledger,
and the index after it. -/
inductive CleanRun (sort : List (ISAMRecord κ) → List (ISAMRecord κ)) :
    Multiset (κ × Int) → ISAM κ → Prop
  | load {batch : List (κ × Int)} {isam : ISAM κ} {res : Except Exn _} (memory : Nat → Slots κ) :
      maxRecords ≤ batch.length → (batch.map (·.1)).Nodup →
      Returns (create.bulkInsert sort memory · batch) (res, isam) → CleanRun sort batch isam
  | add {L : Multiset (κ × Int)} {isam isam' : ISAM κ} {res : Except Exn _} (memory : Slots κ)
      (k : κ) (v : Int) : CleanRun sort L isam →
      Returns (isam.add memory · k v) (res, isam') → CleanRun sort ((k, v) ::ₘ L) isam'
  | remove {L : Multiset (κ × Int)} {isam isam' : ISAM κ} {res : Except Exn _} (k : κ) :
      CleanRun sort L isam → isam.Clean k → Returns (isam.remove · k) (res, isam') →
      CleanRun sort (L.filter (·.1 ≠ k)) isam'

/-- After a clean run the buckets are exact. -/
theorem CleanRun.exact
    (hsort : ∀ l, (sort l).Perm l ∧ (sort l).Pairwise fun a b => a.key ≤ b.key)
    (h : CleanRun sort L isam) : ∃ P C B, isam.Exact P C B L := by
  induction h with
  | load memory hlen hnodup hret =>
    obtain ⟨isam', P, C, hret', hwf, hpairs⟩ := bulkInsert_wellFormed hsort memory _ hlen
    cases hret.unique hret'
    exact ⟨P, C, P.bucket, hwf.exact hpairs hnodup⟩
  | add memory k v _ hret ih =>
    obtain ⟨P, C, B, hexact⟩ := ih
    obtain ⟨isam', C', B', hret', hexact'⟩ := hexact.add memory k v
    cases hret.unique hret'
    exact ⟨P, C', B', hexact'⟩
  | remove k _ hclean hret ih =>
    obtain ⟨P, C, B, hexact⟩ := ih
    obtain ⟨res, isam', C', B', hret', hexact', -⟩ := hexact.remove hclean
    cases hret.unique hret'
    exact ⟨P, C', B', hexact'⟩

/-- In every state of a clean run: `range_search` finds exactly the positions of the ledger under the
keys of the range, `search` some of those under the key, none only when there are none, an insertion
comes back, and a clean removal reports a position that the ledger has under the key, or changes
nothing when there is none. -/
theorem exact_of_run
    (hsort : ∀ l, (sort l).Perm l ∧ (sort l).Pairwise fun a b => a.key ≤ b.key)
    (h : CleanRun sort L isam) :
    (∀ lo hi, ∃ res, Returns (isam.rangeSearch · lo hi) (.ok res) ∧
      (res : Multiset Int) = (L.filter fun p => lo ≤ p.1 ∧ p.1 ≤ hi).map (·.2)) ∧
    (∀ k, ∃ res, Returns (isam.search · k) (.ok res) ∧
      (res : Multiset Int) ≤ (L.filter (·.1 = k)).map (·.2) ∧ (res = [] ↔ ∀ v, (k, v) ∉ L)) ∧
    (∀ memory k v, ∃ isam', Returns (isam.add memory · k v) (.ok [v], isam')) ∧
    ∀ k, isam.Clean k → ∃ res isam', Returns (isam.remove · k) (.ok res, isam') ∧
      ((∀ v, (k, v) ∉ L) ∧ res = [] ∧ isam' = isam ∨ ∃ v, res = [v] ∧ (k, v) ∈ L) := by
  obtain ⟨P, C, B, hexact⟩ := h.exact hsort
  refine ⟨hexact.rangeSearch, hexact.search, fun memory k v => ?_, fun k hclean => ?_⟩
  · obtain ⟨isam', -, -, hret, -⟩ := hexact.add memory k v
    exact ⟨isam', hret⟩
  · obtain ⟨res, isam', -, -, hret, -, hcases⟩ := hexact.remove hclean
    exact ⟨res, isam', hret, hcases⟩

end

/-- The page with the keys 3, 4 and 5 after the load of the rows with the keys 0 to 80. -/
def samplePage : DataPage Int :=
  ⟨⟨[{ key := 3, pos := 3 }, { key := 4, pos := 4 }, { key := 5, pos := 5 }], rfl⟩, -1, 3⟩

/-- After a load of 81 rows with the keys 0 to 80, a removal of the key 5 and an insertion of it with
another position. -/
theorem exact_of_run_sample : ∃ (L : Multiset (Int × Int)) (isam : ISAM Int),
    CleanRun insertionSortByKey L isam ∧ ∃ res, Returns (isam.rangeSearch · 4 6) (.ok res) ∧
      (res : Multiset Int) = {4, 6, 90} := by
  have r0 : CleanRun insertionSortByKey sampleRows
      ⟨sampleLevels.1, sampleLevels.2.idxFile, sampleLevels.2.dtFile, []⟩ :=
    .load (fun _ => default) (by decide) (by decide +kernel)
      (.of_eq (bulkInsert_of_levels (by decide) sampleLevels rfl (by decide +kernel)))
  have hclean : Clean ⟨sampleLevels.1, sampleLevels.2.idxFile, sampleLevels.2.dtFile, []⟩ 5 := by
    refine ⟨152, [(152, samplePage)], .of_add 5 fun _ => rfl,
      Chain.cons_iff.2 ⟨rfl, rfl, Path.nil_iff.2 rfl⟩, .inr ⟨?_, ?_, ?_⟩⟩
    · exact ⟨[], (152, samplePage), [], ⟨rfl, nofun, by decide, by decide⟩, ⟨_, rfl, by decide⟩,
        by decide, by decide, by decide⟩
    · rintro ⟨c0, c1, passed, c, rest, r, hcells, -⟩
      cases hcells
    · rintro ⟨c, rest, r, hcells, hlive, -⟩
      cases hcells
      cases hlive
  have r1 := r0.remove 5 hclean (.of_add 5 fun _ => rfl)
  have r2 := r1.add default 5 90 (.of_add 5 fun _ => rfl)
  obtain ⟨res, hres, heq⟩ := (exact_of_run insertionSortByKey_spec r2).1 4 6
  exact ⟨_, _, r2, res, hres, heq.trans (by decide +kernel)⟩

end ISAM

end Rdbms
