import Mathlib.Algebra.Order.BigOperators.Group.Finset
import Mathlib.Algebra.Order.Group.Multiset
import Rdbms.Isam.Agree
import Rdbms.Isam.Takes

/-!
# The ledger of a run

A ledger has every pair that has been inserted and not been reported by a removal since. Whatever a
removal does to the chains, the buckets never have more than the ledger (`LedgerRun.stock_le`). So in
every state that a load, insertions and removals lead to, all calls come back, and no lookup finds a
position more often than the ledger has it under a key that is looked for (`ledger_of_run`).
-/

namespace Rdbms

namespace ISAM
variable {κ : Type} [LinearOrder κ] {isam isam' : ISAM κ} {cells : List (Int × DataPage κ)}
  {E E' E1 F : List (Entry κ Int)} {C : Nat → List (Int × DataPage κ)}
  {B : Nat → List (Entry κ Int)} {res : List Int} {k : κ} {q : Nat}

/-- What entries hold. -/
def entryPairs (E : List (Entry κ Int)) : Multiset (κ × Int) := E.flatMap (·.pairs)

/-- What the buckets hold. -/
def stock (B : Nat → List (Entry κ Int)) : Multiset (κ × Int) :=
  ∑ q ∈ Finset.range 27, entryPairs (B q)

omit [LinearOrder κ] in
/-- What two parts hold together. -/
theorem entryPairs_append : entryPairs (E ++ F) = entryPairs E + entryPairs F := by
  rw [entryPairs, List.flatMap_append, ← Multiset.coe_add]
  rfl

omit [LinearOrder κ] in
/-- What one more entry holds. -/
theorem entryPairs_cons {e : Entry κ Int} : entryPairs (e :: E) = e.pairs + entryPairs E := by
  rw [entryPairs, List.flatMap_cons, ← Multiset.coe_add]
  rfl

omit [LinearOrder κ] in
/-- Fewer entries hold less. -/
theorem entryPairs_mono (h : E.Sublist F) : entryPairs E ≤ entryPairs F := by
  induction h with
  | slnil => exact le_rfl
  | cons e _ ih =>
    rw [entryPairs_cons]
    exact ih.trans (Multiset.le_add_left _ _)
  | cons_cons e _ ih =>
    rw [entryPairs_cons, entryPairs_cons]
    exact add_le_add le_rfl ih

omit [LinearOrder κ] in
/-- One bucket changes. -/
theorem stock_update (hq : q < 27) :
    stock (Function.update B q E') + entryPairs (B q) = stock B + entryPairs E' := by
  have hmem : q ∈ Finset.range 27 := Finset.mem_range.2 hq
  have hrest : ∑ r ∈ (Finset.range 27).erase q, entryPairs (Function.update B q E' r) =
      ∑ r ∈ (Finset.range 27).erase q, entryPairs (B r) :=
    Finset.sum_congr rfl fun r hr => by rw [Function.update_of_ne (Finset.ne_of_mem_erase hr)]
  rw [stock, stock, ← Finset.add_sum_erase _ _ hmem, ← Finset.add_sum_erase _ _ hmem, hrest,
    Function.update_self]
  ac_rfl

omit [LinearOrder κ] in
/-- What goes from the stock with one bucket, and what comes to it. -/
theorem stock_update_le (X Y : Multiset (κ × Int)) (hq : q < 27)
    (h : X + entryPairs E' ≤ Y + entryPairs (B q)) :
    X + stock (Function.update B q E') ≤ Y + stock B := by
  refine le_of_add_le_add_right (a := entryPairs (B q)) ?_
  calc X + stock (Function.update B q E') + entryPairs (B q)
      = stock B + (X + entryPairs E') := by rw [add_assoc, stock_update hq]; ac_rfl
    _ ≤ stock B + (Y + entryPairs (B q)) := add_le_add le_rfl h
    _ = Y + stock B + entryPairs (B q) := by ac_rfl

/-! ## Removals -/

section
variable [IntCast κ]

/-- Of the page where a removal ends, a pair of the key with the reported position goes. -/
theorem Taken.entryPairs_le {dupFile : List (ISAMRecord κ)} {passed rest : List (Int × DataPage κ)}
    {c : Int × DataPage κ} {F1 F2 : List (Entry κ Int)}
    (h : Taken dupFile k cells E passed c rest F1 E1 F2) :
    {(k, c.2.deletedPos k)} + entryPairs (skipRemove (·.key = k) E1) ≤ entryPairs E1 := by
  have hpos := h.deletedPos
  have hlast := lastRemoved_forall₂ (IsEntry.key_eq k) h.page
  rw [DataPage.deletedPos] at hpos ⊢
  cases hrecord : lastRemoved (·.key = k) c.2.live with
  | none =>
    rw [hrecord] at hpos
    exact absurd rfl hpos
  | some r =>
    rw [hrecord] at hlast
    generalize hentry : lastRemoved (·.key = k) E1 = entry at hlast
    cases hlast with
    | @some _ e hholds =>
      obtain ⟨m1, m2, rfl, hsub⟩ := exists_of_lastRemoved hentry
      have hk : k = e.key := (of_decide_eq_true (mem_of_lastRemoved hentry).2).symm
      have hmem : (k, r.pos) ∈ e.pairs :=
        Entry.mem_pairs.2 ⟨hk, List.mem_cons.2 (.inl hholds.2.1)⟩
      calc {(k, r.pos)} + entryPairs (skipRemove (·.key = k) (m1 ++ e :: m2))
          ≤ e.pairs + entryPairs (m1 ++ m2) :=
            add_le_add (Multiset.singleton_le.2 hmem) (entryPairs_mono hsub)
        _ = entryPairs (m1 ++ e :: m2) := by
            rw [entryPairs_append, entryPairs_append, entryPairs_cons]
            ac_rfl

/-- What a removal reports is no more there. -/
theorem Removal.entryPairs_le (h : Removal isam k cells E res isam' E') :
    (res.map (k, ·) : List (κ × Int)) + entryPairs E' ≤ entryPairs E := by
  cases h with
  | nothing => exact (zero_add _).le
  | @kept passed rest c F1 E1 F2 _ htaken =>
    rw [htaken.entries, entryPairs_append, entryPairs_append, entryPairs_append, entryPairs_append]
    calc ([(k, c.2.deletedPos k)] : Multiset (κ × Int)) +
          (entryPairs F1 + (entryPairs (skipRemove (·.key = k) E1) + entryPairs F2))
        = entryPairs F1 + ({(k, c.2.deletedPos k)} + entryPairs (skipRemove (·.key = k) E1) +
            entryPairs F2) := by
          rw [Multiset.coe_singleton]
          ac_rfl
      _ ≤ entryPairs F1 + (entryPairs E1 + entryPairs F2) :=
          add_le_add le_rfl (add_le_add htaken.entryPairs_le le_rfl)
  | @emptied passed rest c F0 F1 E1 F2 _ htaken =>
    rw [htaken.entries, entryPairs_append, entryPairs_append, entryPairs_append, entryPairs_append]
    have htaken1 : {(k, c.2.deletedPos k)} ≤ entryPairs E1 :=
      (Multiset.le_add_right _ _).trans htaken.entryPairs_le
    calc ([(k, c.2.deletedPos k)] : Multiset (κ × Int)) + (entryPairs F0 + entryPairs F2)
        = entryPairs F0 + ({(k, c.2.deletedPos k)} + entryPairs F2) := by
          rw [Multiset.coe_singleton]
          ac_rfl
      _ ≤ entryPairs F0 + entryPairs F1 + (entryPairs E1 + entryPairs F2) :=
          add_le_add (Multiset.le_add_right _ _) (add_le_add htaken1 le_rfl)

/-- What a removal reports goes from the stock. -/
theorem Removal.stock_le (h : Removal isam k cells (B q) res isam' E') (hq : q < 27) :
    (res.map (k, ·) : List (κ × Int)) + stock (Function.update B q E') ≤ stock B := by
  have hstock := stock_update_le _ 0 hq (h.entryPairs_le.trans (zero_add _).ge)
  rwa [zero_add] at hstock

end

/-! ## Lookups -/

omit [LinearOrder κ] in
/-- What the first buckets hold together. -/
theorem entryPairs_flatMap (f : Nat → List (Entry κ Int)) (n : Nat) :
    entryPairs ((List.range n).flatMap f) = ∑ q ∈ Finset.range n, entryPairs (f q) := by
  induction n with
  | zero => rfl
  | succ n ih =>
    rw [List.range_succ, List.flatMap_append, List.flatMap_singleton, entryPairs_append, ih,
      Finset.sum_range_succ]

omit [LinearOrder κ] in
/-- What `range_search` sees is in the buckets. -/
theorem seenFrom_le : entryPairs (seenFrom C B 0) ≤ stock B := by
  have hseen : seenFrom C B 0 = (List.range 27).flatMap fun q => seen (C q) (B q) := by
    rw [List.range_eq_range']
    rfl
  rw [hseen, entryPairs_flatMap]
  refine Finset.sum_le_sum fun q _ => entryPairs_mono ?_
  rw [seen]
  split_ifs
  · exact List.nil_sublist _
  · exact .refl _

/-- A `range_search` reports what is in stock, each pair once at most. -/
theorem hits_le (lo hi : κ) : (hits lo hi (seenFrom C B 0) : Multiset Int) ≤
    ((stock B).filter fun p => lo ≤ p.1 ∧ p.1 ≤ hi).map (·.2) := by
  rw [Partition.hits_eq_pairs, ← Multiset.map_coe, ← Multiset.filter_coe]
  exact Multiset.map_le_map (Multiset.filter_le_filter _ seenFrom_le)

/-- The first entry of a key holds what is in stock. -/
theorem firstValues_le (hq : q < 27) (k : κ) : (firstValues (B q) k : Multiset Int) ≤
    ((stock B).filter (·.1 = k)).map (·.2) := by
  rw [firstValues]
  cases hfind : (B q).find? (·.key = k) with
  | none => exact Multiset.zero_le _
  | some e =>
    have hk := List.find?_some hfind
    obtain rfl : e.key = k := of_decide_eq_true hk
    have hself : e.pairs.filter (·.1 = e.key) = e.pairs :=
      List.filter_eq_self.2 fun p hp => decide_eq_true (Entry.mem_pairs.1 hp).1
    have hvalues : e.values = (e.pairs.filter (·.1 = e.key)).map (·.2) := by
      rw [hself, Entry.pairs, List.map_map]
      exact (List.map_id' _).symm
    have hle : (e.pairs : Multiset (κ × Int)) ≤ stock B := by
      have hmem := entryPairs_mono (List.singleton_sublist.2 (List.mem_of_find?_eq_some hfind))
      rw [entryPairs_cons] at hmem
      exact ((Multiset.le_add_right _ _).trans hmem).trans
        (Finset.single_le_sum (f := fun q => entryPairs (B q)) (fun _ _ => Multiset.zero_le _)
          (Finset.mem_range.2 hq))
    show (e.values : Multiset Int) ≤ _
    rw [hvalues, ← Multiset.map_coe, ← Multiset.filter_coe]
    exact Multiset.map_le_map (Multiset.filter_le_filter _ hle)

/-! ## Runs -/

section
variable [IntCast κ] {sort : List (ISAMRecord κ) → List (ISAMRecord κ)} {L : Multiset (κ × Int)}

/-- A load of a new index, followed by insertions and removals: the ledger, and the index after it. -/
inductive LedgerRun (sort : List (ISAMRecord κ) → List (ISAMRecord κ)) :
    Multiset (κ × Int) → ISAM κ → Prop
  | load {batch : List (κ × Int)} {isam : ISAM κ} {res : Except Exn _} (memory : Nat → Slots κ) :
      maxRecords ≤ batch.length → Returns (create.bulkInsert sort memory · batch) (res, isam) →
      LedgerRun sort batch isam
  | add {L : Multiset (κ × Int)} {isam isam' : ISAM κ} {res : Except Exn _} (memory : Slots κ)
      (k : κ) (v : Int) : LedgerRun sort L isam →
      Returns (isam.add memory · k v) (res, isam') → LedgerRun sort ((k, v) ::ₘ L) isam'
  | remove {L : Multiset (κ × Int)} {isam isam' : ISAM κ} {res : List Int} (k : κ) :
      LedgerRun sort L isam → Returns (isam.remove · k) (.ok res, isam') →
      LedgerRun sort (L - (res.map (k, ·) : List (κ × Int))) isam'

/-- The buckets never have more than the ledger. -/
theorem LedgerRun.stock_le
    (hsort : ∀ l, (sort l).Perm l ∧ (sort l).Pairwise fun a b => a.key ≤ b.key)
    (h : LedgerRun sort L isam) : ∃ P C B, isam.Linked P C B ∧ Within P B ∧ stock B ≤ L := by
  induction h with
  | load memory hlen hret =>
    obtain ⟨isam', P, C, hret', hwf, hpairs⟩ := bulkInsert_wellFormed hsort memory _ hlen
    cases hret.unique hret'
    refine ⟨P, C, P.bucket, hwf.linked, fun q hq e he => ⟨P.lower q hq e he, P.upper q hq e he⟩, ?_⟩
    rw [← Multiset.coe_eq_coe.2 hpairs, stock, ← entryPairs_flatMap, List.range_eq_range']
    exact le_rfl
  | add memory k v _ hret ih =>
    obtain ⟨P, C, B, hlinked, hw, hle⟩ := ih
    obtain ⟨q, isam', cells', E', hroute, -, hret', hrelinked, hok, hkeys, hpairs, -⟩ :=
      hlinked.add_at memory k v
    cases hret.unique hret'
    refine ⟨P, _, _, hlinked.relinked hroute.lt hrelinked hok, hw.routed (.update hroute hkeys), ?_⟩
    have hstock := stock_update_le (B := B) 0 {(k, v)} hroute.lt (by
      rw [zero_add, Multiset.singleton_add]
      exact Multiset.coe_le.2 hpairs)
    rw [zero_add, Multiset.singleton_add] at hstock
    exact hstock.trans (Multiset.cons_le_cons _ hle)
  | remove k _ hret ih =>
    obtain ⟨P, C, B, hlinked, hw, hle⟩ := ih
    obtain ⟨q, res', isam', cells', E', hroute, -, hret', hrelinked, hok, hremoval⟩ :=
      hlinked.remove_at k
    cases hret.unique hret'
    refine ⟨P, _, _, hlinked.relinked hroute.lt hrelinked hok,
      hw.routed (.update hroute fun e he => .inr (hremoval.sublist.subset he)), ?_⟩
    exact le_tsub_of_add_le_left ((hremoval.stock_le hroute.lt).trans hle)

/-- In every state that a load, insertions and removals lead to, also through removals that lose
records: all calls come back, `range_search` finds no position more often than the ledger has it under
the keys of the range, `search` none more often than the ledger has it under the key, and `remove`
reports what the ledger has under the key. -/
theorem ledger_of_run
    (hsort : ∀ l, (sort l).Perm l ∧ (sort l).Pairwise fun a b => a.key ≤ b.key)
    (h : LedgerRun sort L isam) :
    (∀ lo hi, ∃ res, Returns (isam.rangeSearch · lo hi) (.ok res) ∧
      (res : Multiset Int) ≤ (L.filter fun p => lo ≤ p.1 ∧ p.1 ≤ hi).map (·.2)) ∧
    (∀ k, ∃ res, Returns (isam.search · k) (.ok res) ∧
      (res : Multiset Int) ≤ (L.filter (·.1 = k)).map (·.2)) ∧
    (∀ k, ∃ res isam', Returns (isam.remove · k) (.ok res, isam') ∧
      ((res.map (k, ·) : List (κ × Int)) : Multiset (κ × Int)) ≤ L) ∧
    ∀ memory k v, ∃ isam', Returns (isam.add memory · k v) (.ok [v], isam') := by
  obtain ⟨P, C, B, hlinked, hw, hle⟩ := h.stock_le hsort
  refine ⟨fun lo hi => ?_, fun k => ?_, fun k => ?_, fun memory k v => ?_⟩
  · exact ⟨_, hlinked.rangeSearch hw lo hi,
      (hits_le lo hi).trans (Multiset.map_le_map (Multiset.filter_le_filter _ hle))⟩
  · obtain ⟨q, hdescend, hroute⟩ := hlinked.root.descend_le k
    exact ⟨_, search_of_descend hlinked.root.root_ne hdescend
      (hlinked.buckets.chain q hroute.lt) (hlinked.buckets.entries q hroute.lt),
      (firstValues_le hroute.lt k).trans (Multiset.map_le_map (Multiset.filter_le_filter _ hle))⟩
  · obtain ⟨q, res, isam', cells', E', hroute, -, hret, -, -, hremoval⟩ := hlinked.remove_at k
    exact ⟨res, isam', hret,
      (Multiset.le_add_right _ _).trans ((hremoval.stock_le hroute.lt).trans hle)⟩
  · obtain ⟨q, isam', -, -, -, -, hret, -⟩ := hlinked.add_at memory k v
    exact ⟨isam', hret⟩

end

/-- After a load of 81 rows with the keys 0 to 80, a removal of the key 5 and an insertion of it. -/
theorem ledger_of_run_sample : ∃ (L : Multiset (Int × Int)) (isam : ISAM Int),
    LedgerRun sortByKey ((5, 90) ::ₘ L) isam ∧ ∃ res, Returns (isam.search · 5) (.ok res) ∧
      (res : Multiset Int) ≤ (((5, 90) ::ₘ L).filter (·.1 = 5)).map (·.2) := by
  obtain ⟨isam, -, -, hload, -, -⟩ := bulkInsert_wellFormed sortByKey_spec
    (fun _ => default) sampleRows (by decide)
  have h : LedgerRun sortByKey sampleRows isam := .load _ (by decide) hload
  obtain ⟨-, -, hremove, -⟩ := ledger_of_run sortByKey_spec h
  obtain ⟨_, isam1, hremove, -⟩ := hremove 5
  have h1 := h.remove 5 hremove
  obtain ⟨-, -, -, hadd⟩ := ledger_of_run sortByKey_spec h1
  obtain ⟨isam2, hadd⟩ := hadd default 5 90
  have h2 := h1.add _ 5 90 hadd
  exact ⟨_, isam2, h2, (ledger_of_run sortByKey_spec h2).2.1 5⟩

end ISAM

end Rdbms
