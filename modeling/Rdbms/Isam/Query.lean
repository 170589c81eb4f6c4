import Rdbms.Isam.Invariant

/-!
# Queries

`search` follows the chain of the bucket that the key is routed to and comes back with the entry of
the first record that has the key. `range_search` goes through the chains from the first one that
can have a key of the range to the first one that has a key above it.
-/

namespace Rdbms

namespace ISAM
variable {κ : Type} [LinearOrder κ] {isam : ISAM κ} {pos : Int} {key : κ}
  {P : Partition κ Int 27} {C : Nat → List (Int × DataPage κ)} {cells : List (Int × DataPage κ)}
  {E : List (Entry κ Int)} {c : Int × DataPage κ}

/-! ## `search` -/

/-- The first record with a key and the first entry with it. -/
theorem find?_forall₂ {records : List (ISAMRecord κ)} {dupFile : List (ISAMRecord κ)}
    (h : List.Forall₂ (IsEntry dupFile) records E) (key : κ) :
    (∃ record e, records.find? (·.key = key) = some record ∧ E.find? (·.key = key) = some e ∧
      IsEntry dupFile record e) ∨
    records.find? (·.key = key) = none ∧ E.find? (·.key = key) = none := by
  induction h with
  | nil => exact .inr ⟨rfl, rfl⟩
  | @cons record e records E hentry _ ih =>
    by_cases hk : record.key = key
    · refine .inl ⟨record, e, List.find?_cons_of_pos (decide_eq_true hk), ?_, hentry⟩
      exact List.find?_cons_of_pos (decide_eq_true (hentry.1.symm.trans hk))
    · have hk' : ¬ e.key = key := hentry.1 ▸ hk
      rw [List.find?_cons_of_neg (by simpa using hk), List.find?_cons_of_neg (by simpa using hk')]
      exact ih

/-- The values of the first entry of a key. -/
def firstValues (E : List (Entry κ Int)) (key : κ) : List Int :=
  ((E.find? (·.key = key)).map (·.values)).getD []

/-- Along a chain. -/
theorem search_chain (key : κ) : ∀ {cells : List (Int × DataPage κ)} {pos : Int} {E : List (Entry κ Int)},
    isam.Chain pos cells → cells ≠ [] → List.Forall₂ (IsEntry isam.dupFile) (live cells) E →
    LoopReturns (isam.searchBody key) pos (firstValues E key)
  | [], _, _, _, hne, _ => absurd rfl hne
  | c :: cells, pos, E, h, _, hE => by
    obtain ⟨-, hpage, hnext⟩ := Chain.cons_iff.1 h
    rw [live_cons] at hE
    obtain ⟨E1, E2, rfl, hE1, hE2⟩ := Multimap.forall₂_append_left hE
    rcases find?_forall₂ hE1 key with ⟨record, e, hfind, hfind', hentry⟩ | ⟨hfind, hfind'⟩
    · have hvalues : firstValues (E1 ++ E2) key = e.values := by
        rw [firstValues, List.find?_append, hfind']
        rfl
      rw [hvalues]
      refine .done (((getAllRaw_returns hentry.2 []).map Sum.inr).congr fun fuel => ?_)
      rw [searchBody, hpage]
      simp only [Option.bind_eq_bind, Option.bind_some, hfind]
      rfl
    · have hvalues : firstValues (E1 ++ E2) key = firstValues E2 key := by
        rw [firstValues, List.find?_append, hfind']
        rfl
      have hbody : ∀ fuel, isam.searchBody key fuel pos =
          if c.2.next ≠ -1 then some (.inl c.2.next) else some (.inr []) := by
        intro fuel
        rw [searchBody, hpage]
        simp only [Option.bind_eq_bind, Option.bind_some, hfind]
      rw [hvalues]
      by_cases hlast : c.2.next = -1
      · obtain rfl := hnext.eq_nil_iff.2 hlast
        cases hE2
        exact .done (.of_eq fun fuel => by rw [hbody, if_neg (by simpa using hlast)]; rfl)
      · exact .step (.of_eq fun fuel => by rw [hbody, if_pos hlast])
          (search_chain key hnext (mt hnext.eq_nil_iff.1 hlast) hE2)

/-- `search` follows the chain to which the way down leads. -/
theorem search_of_descend {q : Nat} (hroot : isam.root ≠ -1)
    (hdescend : Returns (isam.descend (· ≤ key) · isam.root) (dataPageLayout.pos q))
    (hchain : isam.Chain (dataPageLayout.pos q) cells)
    (hE : List.Forall₂ (IsEntry isam.dupFile) (live cells) E) :
    Returns (isam.search · key) (.ok (firstValues E key)) := by
  have hne : cells ≠ [] := mt hchain.eq_nil_iff.1 Layout.pos_ne_neg_one
  refine (hdescend.bind (g := fun fuel dataPos =>
    (loop (isam.searchBody key fuel) fuel dataPos).map Except.ok)
    ((search_chain key hchain hne hE).returns.map Except.ok)).congr fun fuel => ?_
  rw [ISAM.search, if_neg hroot]
  rfl

/-- `search` answers with an entry of the key, and with nothing when there is none. -/
theorem WellFormed.search (h : isam.WellFormed P C) (key : κ) :
    ∃ res, Returns (isam.search · key) (.ok res) ∧
      ((∃ e ∈ P.entriesFrom 0, e.key = key ∧ res = e.values) ∨
        res = [] ∧ ∀ e ∈ P.entriesFrom 0, e.key ≠ key) := by
  obtain ⟨q, hdescend, hroute⟩ := h.root.descend_le key
  refine ⟨_, search_of_descend h.root.root_ne hdescend (h.chain q hroute.lt) (h.entries q hroute.lt), ?_⟩
  unfold firstValues
  cases hfind : (P.bucket q).find? (·.key = key) with
  | some e =>
    have hmem := Partition.mem_entriesFrom.2
      ⟨q, Nat.zero_le _, hroute.lt, List.mem_of_find?_eq_some hfind⟩
    exact .inl ⟨e, hmem, by simpa using List.find?_some hfind, rfl⟩
  | none =>
    refine .inr ⟨rfl, fun e he hk => ?_⟩
    obtain ⟨x, hx, hxk⟩ := Partition.exists_of_route hroute ⟨e, he, hk⟩
    exact List.find?_eq_none.1 hfind x hx (by simpa using hxk)

/-! ## `range_search` -/

/-- A page that holds records has a last one. -/
theorem PageOk.live_ne {κ : Type} {c : Int × DataPage κ} (h : PageOk c) : c.2.live ≠ [] := by
  intro hnil
  have hlen := congrArg List.length hnil
  rw [DataPage.live, List.length_take, c.2.records.2, List.length_nil] at hlen
  have := h.1
  omega

section
variable (lo hi : κ)

/-- The records of a page. -/
theorem rangeRecords_returns {records : List (ISAMRecord κ)} {E : List (Entry κ Int)}
    (s : κ × List Int) (h : List.Forall₂ (IsEntry isam.dupFile) records E) :
    Returns (isam.rangeRecords lo hi · s records)
      ((records.getLast?.map (·.key)).getD s.1, s.2 ++ hits lo hi E) := by
  induction h generalizing s with
  | nil => exact .of_eq fun fuel => by simp [rangeRecords]
  | @cons record e records E hentry _ ih =>
    obtain ⟨hkey, hpositions⟩ := hentry
    obtain ⟨l, result⟩ := s
    have hlast : ((record :: records).getLast?.map (·.key)).getD l =
        (records.getLast?.map (·.key)).getD record.key := by
      rw [List.getLast?_cons]
      cases records.getLast? <;> rfl
    rw [hlast]
    by_cases hin : lo ≤ record.key ∧ record.key ≤ hi
    · have hhit : result ++ hits lo hi (e :: E) = result ++ e.values ++ hits lo hi E := by
        rw [hkey] at hin
        simp [hits, hin]
      rw [hhit]
      refine ((getAllRaw_returns hpositions result).bind (g := fun fuel result =>
        isam.rangeRecords lo hi fuel (record.key, result) records)
        (ih (record.key, result ++ e.values))).congr fun fuel => ?_
      rw [rangeRecords]
      simp only [if_pos hin]
      rfl
    · have hhit : result ++ hits lo hi (e :: E) = result ++ hits lo hi E := by
        rw [hkey] at hin
        simp [hits, hin]
      rw [hhit]
      refine (ih (record.key, result)).congr fun fuel => ?_
      rw [rangeRecords]
      simp only [if_neg hin]
      rfl

/-- Along a chain: the last key is one of the chain's. -/
theorem range_chain : ∀ {cells : List (Int × DataPage κ)} {pos : Int} {E : List (Entry κ Int)}
    (s : κ × List Int), isam.Chain pos cells → cells ≠ [] → (∀ c ∈ cells, PageOk c) →
    List.Forall₂ (IsEntry isam.dupFile) (live cells) E →
    ∃ e ∈ E, LoopReturns (isam.rangeChainBody lo hi) (pos, s) (e.key, s.2 ++ hits lo hi E)
  | [], _, _, _, _, hne, _, _ => absurd rfl hne
  | c :: cells, pos, E, s, h, _, hok, hE => by
    obtain ⟨-, hpage, hnext⟩ := Chain.cons_iff.1 h
    rw [live_cons] at hE
    obtain ⟨E1, E2, rfl, hE1, hE2⟩ := Multimap.forall₂_append_left hE
    have hne := (hok c (.head _)).live_ne
    have hrecords := rangeRecords_returns lo hi s hE1
    rw [List.getLast?_eq_getLast_of_ne_nil hne] at hrecords
    obtain ⟨e, he, hek, -⟩ := Multimap.forall₂_exists hE1 (List.getLast_mem hne)
    have hempty : ¬ c.2.isEmpty = true := by
      rw [DataPage.isEmpty, decide_eq_true_eq]
      exact Nat.one_le_iff_ne_zero.1 (hok c (.head _)).1
    have hbody : ∀ {res}, (if c.2.next ≠ -1 then
          .inl (c.2.next, e.key, s.2 ++ hits lo hi E1) else .inr (e.key, s.2 ++ hits lo hi E1)) = res →
        Returns (isam.rangeChainBody lo hi · (pos, s)) res := by
      rintro _ rfl
      filter_upwards [hrecords] with fuel hfuel
      rw [rangeChainBody, hpage]
      simp only [Option.bind_eq_bind, Option.bind_some, if_neg hempty, hfuel, Option.map_some,
        Option.getD_some, hek]
      split_ifs <;> rfl
    by_cases hlast : c.2.next = -1
    · obtain rfl := hnext.eq_nil_iff.2 hlast
      cases hE2
      refine ⟨e, by simp [he], .done (hbody ?_)⟩
      rw [if_neg (not_not.2 hlast), List.append_nil]
    · obtain ⟨e2, he2, hret⟩ := range_chain (e.key, s.2 ++ hits lo hi E1) hnext
        (mt hnext.eq_nil_iff.1 hlast) (fun c hc => hok c (.tail _ hc)) hE2
      refine ⟨e2, by simp [he2], .step (hbody (if_pos hlast)) ?_⟩
      rw [Partition.hits_append, ← List.append_assoc]
      exact hret

/-- Over the chains from the bucket `q` on. -/
theorem range_buckets (h : isam.WellFormed P C) : ∀ (q : Nat) (s : κ × List Int), q < 27 →
    LoopReturns (isam.rangeBody lo hi) (dataPageLayout.pos q, s)
      (s.2 ++ hits lo hi (P.entriesFrom q)) := by
  intro q s hq
  induction hd : 27 - q generalizing q s with
  | zero => omega
  | succ d ih =>
    obtain ⟨e, he, hchain⟩ := range_chain lo hi s (h.chain q hq) (h.chain_ne hq) (h.pages q hq)
      (h.entries q hq)
    have hnext : dataPageLayout.pos q + 152 = dataPageLayout.pos (q + 1) := Layout.pos_succ.symm
    have hlt : dataPageLayout.pos (q + 1) < lastPos ↔ q + 1 < 27 := by
      simp only [dataPageLayout, Layout.pos, lastPos]
      omega
    rw [Partition.entriesFrom_of_lt hq, Partition.hits_append, ← List.append_assoc]
    have hbody : ∀ {res}, (if q + 1 < 27 ∧ e.key ≤ hi then
          .inl (dataPageLayout.pos (q + 1), e.key, s.2 ++ hits lo hi (P.bucket q))
        else .inr (s.2 ++ hits lo hi (P.bucket q))) = res →
        Returns (isam.rangeBody lo hi · (dataPageLayout.pos q, s)) res := by
      rintro _ rfl
      filter_upwards [hchain.returns] with fuel hfuel
      rw [rangeBody, hfuel]
      simp only [Option.bind_eq_bind, Option.bind_some, hnext, hlt]
      split_ifs <;> rfl
    by_cases hgo : q + 1 < 27 ∧ e.key ≤ hi
    · exact .step (hbody (if_pos hgo)) (ih (q + 1) _ hgo.1 (by omega))
    · have hrest : hits lo hi (P.entriesFrom (q + 1)) = [] := by
        by_cases hq1 : q + 1 < 27
        · exact Partition.hits_eq_nil_of_above hq he (not_le.1 fun hle => hgo ⟨hq1, hle⟩)
        · rw [Partition.entriesFrom, show 27 - (q + 1) = 0 by omega]
          rfl
      rw [hrest, List.append_nil]
      exact .done (hbody (if_neg hgo))

/-- `range_search` answers with all that the range holds. -/
theorem WellFormed.rangeSearch (h : isam.WellFormed P C) :
    Returns (isam.rangeSearch · lo hi) (.ok (hits lo hi (P.entriesFrom 0))) := by
  obtain ⟨q, hdescend, hroute⟩ := h.root.descend_lt lo
  have hloop := (range_buckets lo hi h q (lo, []) hroute.lt).returns
  rw [List.nil_append, ← Partition.hits_from_route hroute 0 (Nat.zero_le _)] at hloop
  refine (hdescend.bind (g := fun fuel dataPos =>
    (loop (isam.rangeBody lo hi fuel) fuel (dataPos, lo, [])).map Except.ok)
    (hloop.map Except.ok)).congr fun fuel => ?_
  rw [ISAM.rangeSearch, if_neg h.root.root_ne]
  rfl

end

end ISAM

end Rdbms
