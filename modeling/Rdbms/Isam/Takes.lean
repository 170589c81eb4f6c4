import Rdbms.Isam.Agree

/-!
# When a removal takes a key away

`_remove` ends at the first page of the chain whose last key is not below the key, and looks at this
page only; in it the record behind a removed one is not looked at. A key can have records on other
pages, since the pages are not in order, and several records on one page, since `build` puts equal
keys side by side. So a removal takes a key away when the page where it ends has all its records, no
two of them side by side (`TakesAll`). An emptied page is another case: it is unlinked together with
all pages between it and the first one.
-/

namespace Rdbms

namespace ISAM
variable {κ : Type} [IntCast κ] [LinearOrder κ] {isam isam' : ISAM κ}
  {cells : List (Int × DataPage κ)} {E E' : List (Entry κ Int)} {k : κ} {res : List Int}
  {sort : List (ISAMRecord κ) → List (ISAMRecord κ)} {log : List (κ × Int)}

omit [IntCast κ] in
/-- The removal of the key leaves no record of it on the chain: it ends at a page where it reports a
record, no two records of the key are side by side on that page, and none is on another page that
stays on the chain. -/
def TakesAll (k : κ) (cells : List (Int × DataPage κ)) : Prop :=
  ∃ passed c rest, StopsAt k cells passed c rest ∧
    (∃ r, (c.2.live.filter (·.key = k)).getLast? = some r ∧ r.pos ≠ -1) ∧
    (c.2.live.IsChain fun a b => ¬ (a.key = k ∧ b.key = k)) ∧
    (∀ r ∈ live (if c.2.count = 1 then passed.take 1 else passed), r.key ≠ k) ∧
    ∀ r ∈ live rest, r.key ≠ k

/-! ## Records and entries of the key -/

omit [IntCast κ] [LinearOrder κ] in
/-- Records lack a key when their entries do. -/
theorem forall_key_ne_iff {dupFile records : List (ISAMRecord κ)}
    (h : List.Forall₂ (IsEntry dupFile) records E) :
    (∀ r ∈ records, r.key ≠ k) ↔ ∀ e ∈ E, e.key ≠ k :=
  (Multimap.forall_key_iff (fun _ _ h => h.1) h (· ≠ k)).symm

omit [IntCast κ] in
/-- A key has values when it has an entry. -/
theorem firstValues_eq_nil_iff : firstValues E k = [] ↔ ∀ e ∈ E, e.key ≠ k := by
  rw [firstValues]
  cases hfind : E.find? (·.key = k) with
  | none =>
    rw [List.find?_eq_none] at hfind
    exact ⟨fun _ e he hk => hfind e he (decide_eq_true hk), fun _ => rfl⟩
  | some e =>
    have hk : e.key = k := by simpa using List.find?_some hfind
    exact ⟨fun hnil => absurd hnil (List.cons_ne_nil _ _),
      fun hno => absurd hk (hno e (List.mem_of_find?_eq_some hfind))⟩

omit [IntCast κ] in
/-- What the loop over a page reports when it removes all records of the key. -/
theorem deletedPos_of_isChain {page : DataPage κ}
    (h : page.live.IsChain fun a b => ¬ (a.key = k ∧ b.key = k)) :
    page.deletedPos k = (((page.live.filter (·.key = k)).getLast?).map (·.pos)).getD (-1) := by
  rw [DataPage.deletedPos, lastRemoved_eq_getLast?]
  simpa using h

omit [IntCast κ] in
/-- No two neighbours have the key exactly when the loop leaves no record of it. -/
theorem isChain_iff {records : List (ISAMRecord κ)} :
    (records.IsChain fun a b => ¬ (a.key = k ∧ b.key = k)) ↔
      ∀ r ∈ skipRemove (·.key = k) records, r.key ≠ k := by
  have h := forall_skipRemove_iff (p := fun r : ISAMRecord κ => decide (r.key = k)) (l := records)
  simp only [ne_eq, decide_eq_true_eq] at h
  exact h.symm

omit [IntCast κ] in
/-- A page from which a record of the key goes is emptied when it has one record. -/
theorem count_eq_one_iff {page : DataPage κ} (hpos : page.deletedPos k ≠ -1) :
    page.count = 1 ↔ skipRemove (·.key = k) page.live = [] := by
  constructor
  · intro hone
    have hlen : page.live.length = 1 := by rw [DataPage.length_live (by omega), hone]
    obtain ⟨r, hlive⟩ := List.length_eq_one_iff.1 hlen
    rw [DataPage.deletedPos, hlive, lastRemoved] at hpos
    rw [hlive, skipRemove]
    split_ifs at hpos ⊢ with hk
    · rfl
    · exact absurd rfl hpos
  · intro hnil
    obtain ⟨r, hlive, -⟩ := Removal.emptied_live hpos hnil
    have hlen : page.live.length = 1 := by rw [hlive, List.length_singleton]
    rw [DataPage.live, List.length_take, page.records.2] at hlen
    omega

/-! ## The chain of the key -/

/-- The condition, at the page where the removal ends. -/
theorem StopsAt.takesAll_iff {passed rest : List (Int × DataPage κ)} {c : Int × DataPage κ}
    (h : StopsAt k cells passed c rest) (hpos : c.2.deletedPos k ≠ -1) :
    TakesAll k cells ↔ (∀ r ∈ skipRemove (·.key = k) c.2.live, r.key ≠ k) ∧
      (∀ r ∈ live (if skipRemove (·.key = k) c.2.live = [] then passed.take 1 else passed),
        r.key ≠ k) ∧ ∀ r ∈ live rest, r.key ≠ k := by
  have hone : (if skipRemove (·.key = k) c.2.live = [] then passed.take 1 else passed) =
      if c.2.count = 1 then passed.take 1 else passed := if_congr (count_eq_one_iff hpos).symm rfl rfl
  rw [hone]
  constructor
  · rintro ⟨passed', c', rest', hstops, -, hchain, hbefore, hbehind⟩
    obtain ⟨rfl, rfl, rfl⟩ := h.unique hstops
    exact ⟨isChain_iff.1 hchain, hbefore, hbehind⟩
  · rintro ⟨hskip, hbefore, hbehind⟩
    have hchain := isChain_iff.2 hskip
    refine ⟨passed, c, rest, h, ?_, hchain, hbefore, hbehind⟩
    rw [deletedPos_of_isChain hchain] at hpos
    cases hlast : (c.2.live.filter (·.key = k)).getLast? with
    | none =>
      rw [hlast] at hpos
      exact absurd rfl hpos
    | some r =>
      rw [hlast] at hpos
      exact ⟨r, rfl, hpos⟩

namespace Removal

/-- What is reported is the position of one of the entries of the key. -/
theorem mem_pairs (h : Removal isam k cells E res isam' E') (hres : res ≠ []) :
    ∃ p, res = [p] ∧ (k, p) ∈ E.flatMap (·.pairs) := by
  have hmem {passed rest : List (Int × DataPage κ)} {c : Int × DataPage κ}
      {F1 E1 F2 : List (Entry κ Int)} (htaken : Taken isam.dupFile k cells E passed c rest F1 E1 F2) :
      (k, c.2.deletedPos k) ∈ E.flatMap (·.pairs) := by
    have hpos := htaken.deletedPos
    rw [DataPage.deletedPos] at hpos ⊢
    cases hlast : lastRemoved (·.key = k) c.2.live with
    | none =>
      rw [hlast] at hpos
      exact absurd rfl hpos
    | some r =>
      obtain ⟨hr, hk⟩ := mem_of_lastRemoved hlast
      obtain ⟨e, he, hentry⟩ := Multimap.forall₂_exists htaken.page hr
      refine List.mem_flatMap.2 ⟨e, ?_, Entry.mem_pairs.2 ⟨?_, ?_⟩⟩
      · rw [htaken.entries]
        exact List.mem_append_right _ (List.mem_append_left _ he)
      · exact (of_decide_eq_true hk).symm.trans hentry.1
      · exact List.mem_cons.2 (.inl hentry.2.1)
  cases h with
  | nothing => exact absurd rfl hres
  | kept _ htaken => exact ⟨_, rfl, hmem htaken⟩
  | emptied _ htaken => exact ⟨_, rfl, hmem htaken⟩

/-- A removal that reports something leaves nothing of the key on the chain exactly when the chain is
such that it takes all. -/
theorem takesAll_iff (h : Removal isam k cells E res isam' E') :
    (res ≠ [] ∧ ∀ e ∈ E', e.key ≠ k) ↔ TakesAll k cells := by
  cases h with
  | nothing hnone =>
    refine ⟨fun h => absurd rfl h.1, ?_⟩
    rintro ⟨passed, c, rest, hstops, ⟨r, hr, hpos⟩, hchain, -⟩
    have hpos' := hnone passed c rest hstops
    rw [deletedPos_of_isChain hchain, hr] at hpos'
    exact absurd hpos' hpos
  | kept _ htaken hne =>
    have hskip := skipRemove_forall₂ (IsEntry.key_eq k) htaken.page
    rw [htaken.toStopsAt.takesAll_iff htaken.deletedPos, if_neg hne, forall_key_ne_iff hskip,
      forall_key_ne_iff htaken.before, forall_key_ne_iff htaken.behind, List.forall_mem_append,
      List.forall_mem_append]
    exact ⟨fun ⟨_, h1, h2, h3⟩ => ⟨h2, h1, h3⟩, fun ⟨h2, h1, h3⟩ => ⟨nofun, h1, h2, h3⟩⟩
  | emptied _ htaken hF0 hnil =>
    rw [htaken.toStopsAt.takesAll_iff htaken.deletedPos, if_pos hnil, hnil, forall_key_ne_iff hF0,
      forall_key_ne_iff htaken.behind, List.forall_mem_append]
    exact ⟨fun ⟨_, h1, h3⟩ => ⟨nofun, h1, h3⟩, fun ⟨_, h1, h3⟩ => ⟨nofun, h1, h3⟩⟩

/-- A chain without the key stays. -/
theorem eq_of_forall (h : Removal isam k cells E res isam' E') (hno : ∀ e ∈ E, e.key ≠ k) :
    res = [] ∧ isam' = isam := by
  by_contra hcon
  have hres : res ≠ [] := by
    cases h with
    | nothing => exact absurd ⟨rfl, rfl⟩ hcon
    | kept => exact List.cons_ne_nil _ _
    | emptied => exact List.cons_ne_nil _ _
  obtain ⟨p, -, hp⟩ := h.mem_pairs hres
  obtain ⟨e, he, hp⟩ := List.mem_flatMap.1 hp
  exact hno e he (Entry.mem_pairs.1 hp).1.symm

end Removal

/-! ## Runs -/

/-- A load of a new index, followed by insertions and removals: what was inserted, and the index
after it. -/
inductive LogRun (sort : List (ISAMRecord κ) → List (ISAMRecord κ)) :
    List (κ × Int) → ISAM κ → Prop
  | load {batch : List (κ × Int)} {isam : ISAM κ} {res : Except Exn _} (memory : Nat → Slots κ) :
      maxRecords ≤ batch.length → Returns (create.bulkInsert sort memory · batch) (res, isam) →
      LogRun sort batch isam
  | add {log : List (κ × Int)} {isam isam' : ISAM κ} {res : Except Exn _} (memory : Slots κ)
      (k : κ) (v : Int) : LogRun sort log isam →
      Returns (isam.add memory · k v) (res, isam') → LogRun sort (log ++ [(k, v)]) isam'
  | remove {log : List (κ × Int)} {isam isam' : ISAM κ} {res : Except Exn _} (k : κ) :
      LogRun sort log isam → Returns (isam.remove · k) (res, isam') → LogRun sort log isam'

/-- Every run: what the buckets have was inserted. -/
theorem LogRun.linked
    (hsort : ∀ l, (sort l).Perm l ∧ (sort l).Pairwise fun a b => a.key ≤ b.key)
    (h : LogRun sort log isam) : ∃ P C B, isam.Linked P C B ∧ ∀ p, Stores B p → p ∈ log := by
  induction h with
  | load memory hlen hret =>
    obtain ⟨isam', P, C, hret', hwf, hpairs⟩ := bulkInsert_wellFormed hsort memory _ hlen
    cases hret.unique hret'
    refine ⟨P, C, P.bucket, hwf.linked, ?_⟩
    rintro p ⟨q, hq, hp⟩
    obtain ⟨e, he, hp⟩ := List.mem_flatMap.1 hp
    exact hpairs.mem_iff.1 (List.mem_flatMap.2
      ⟨e, Partition.mem_entriesFrom.2 ⟨q, Nat.zero_le _, hq, he⟩, hp⟩)
  | add memory k v _ hret ih =>
    obtain ⟨P, C, B, hlinked, hlog⟩ := ih
    obtain ⟨isam', C', B', hret', hlinked', -, hstores, -⟩ := hlinked.add memory k v
    cases hret.unique hret'
    refine ⟨P, C', B', hlinked', fun p hp => ?_⟩
    rcases hstores p hp with rfl | hp
    · exact List.mem_append_right _ (.head _)
    · exact List.mem_append_left _ (hlog p hp)
  | remove k _ hret ih =>
    obtain ⟨P, C, B, hlinked, hlog⟩ := ih
    obtain ⟨res, isam', C', B', hret', hlinked', -, hstores, -⟩ := hlinked.remove k
    cases hret.unique hret'
    exact ⟨P, C', B', hlinked', fun p hp => hlog p (hstores p hp)⟩

/-- What a removal should do: of a key that is found, report a position that was inserted under it and
take it away; of another key, report nothing and change nothing. -/
def RemovesKey (isam : ISAM κ) (log : List (κ × Int)) (k : κ) : Prop :=
  ∃ before res isam' after, Returns (isam.search · k) (.ok before) ∧
    Returns (isam.remove · k) (.ok res, isam') ∧ Returns (isam'.search · k) (.ok after) ∧
    if before = [] then res = [] ∧ isam' = isam else (∃ p, res = [p] ∧ (k, p) ∈ log) ∧ after = []

/-- The chain of the key has no record of it, or a removal takes all of them. -/
def Removable (isam : ISAM κ) (k : κ) : Prop :=
  ∃ pos cells, Returns (isam.descend (· ≤ k) · isam.root) pos ∧ isam.Chain pos cells ∧
    ((∀ r ∈ live cells, r.key ≠ k) ∨ TakesAll k cells)

/-- In every state that a load, insertions and removals lead to, and for every key. -/
theorem removes_key_iff
    (hsort : ∀ l, (sort l).Perm l ∧ (sort l).Pairwise fun a b => a.key ≤ b.key)
    (h : LogRun sort log isam) (k : κ) : isam.RemovesKey log k ↔ isam.Removable k := by
  obtain ⟨P, C, B, hlinked, hlog⟩ := h.linked hsort
  obtain ⟨q, res, isam', cells', E', hroute, hdescend, hret, hrelinked, hok, hremoval⟩ :=
    hlinked.remove_at k
  have hchain := hlinked.buckets.chain q hroute.lt
  have hentries := hlinked.buckets.entries q hroute.lt
  have hroot := hlinked.root.root_ne
  have hbefore := search_of_descend hroot hdescend hchain hentries
  have hdescend' : Returns (isam'.descend (· ≤ k) · isam'.root) (dataPageLayout.pos q) :=
    hdescend.congr fun fuel => by rw [hrelinked.root, descend_congr hrelinked.idxFile]
  have hafter := search_of_descend (hrelinked.root ▸ hroot) hdescend' hrelinked.chain
    hrelinked.entries
  have hremovable : isam.Removable k ↔ (∀ e ∈ B q, e.key ≠ k) ∨ TakesAll k (C q) := by
    rw [← forall_key_ne_iff hentries]
    constructor
    · rintro ⟨pos, cells, hdescend1, hchain1, hcases⟩
      obtain rfl := hdescend.unique hdescend1
      rwa [hchain1.unique hchain] at hcases
    · exact fun hcases => ⟨_, _, hdescend, hchain, hcases⟩
  rw [hremovable]
  constructor
  · rintro ⟨before, res1, isam1, after, hbefore1, hret1, hafter1, hcases⟩
    cases hbefore.unique hbefore1
    cases hret.unique hret1
    cases hafter.unique hafter1
    split_ifs at hcases with hnil
    · exact .inl (firstValues_eq_nil_iff.1 hnil)
    · obtain ⟨⟨p, rfl, -⟩, hgone⟩ := hcases
      exact .inr (hremoval.takesAll_iff.1 ⟨List.cons_ne_nil _ _, firstValues_eq_nil_iff.1 hgone⟩)
  · intro hcases
    refine ⟨_, _, _, _, hbefore, hret, hafter, ?_⟩
    split_ifs with hnil
    · exact hremoval.eq_of_forall (firstValues_eq_nil_iff.1 hnil)
    · have htakes := hcases.resolve_left fun hno => hnil (firstValues_eq_nil_iff.2 hno)
      obtain ⟨hres, hgone⟩ := hremoval.takesAll_iff.2 htakes
      obtain ⟨p, hp, hmem⟩ := hremoval.mem_pairs hres
      exact ⟨⟨p, hp, hlog _ ⟨q, hroute.lt, hmem⟩⟩, firstValues_eq_nil_iff.2 hgone⟩

/-- What is found behind the removal of a key that was found before it. -/
theorem RemovesKey.after_eq_nil {before after : List Int} (h : isam.RemovesKey log k)
    (hbefore : Returns (isam.search · k) (.ok before))
    (hret : Returns (isam.remove · k) (.ok res, isam'))
    (hafter : Returns (isam'.search · k) (.ok after)) (hne : before ≠ []) : after = [] := by
  obtain ⟨before1, res1, isam1, after1, hbefore1, hret1, hafter1, hcases⟩ := h
  cases hbefore.unique hbefore1
  cases hret.unique hret1
  cases hafter.unique hafter1
  rw [if_neg hne] at hcases
  exact hcases.2

/-- After a load of 81 rows with the keys 0 to 80, for the key 5. -/
theorem removes_key_iff_sample : ∃ isam : ISAM Int, LogRun sortByKey sampleRows isam ∧
    (isam.RemovesKey sampleRows 5 ↔ isam.Removable 5) := by
  obtain ⟨isam, -, -, hret, -, -⟩ := bulkInsert_wellFormed sortByKey_spec
    (fun _ => default) sampleRows (by decide)
  have h : LogRun sortByKey sampleRows isam := .load _ (by decide) hret
  exact ⟨isam, h, removes_key_iff sortByKey_spec h 5⟩

/-- Two rows with the key 0 are loaded side by side, and a removal of the key leaves one of them. -/
theorem not_removes_key :
    (∀ l, (insertionSortByKey l).Perm l ∧
      (insertionSortByKey l).Pairwise fun a b => a.key ≤ b.key) ∧
    ∃ isam isam' : ISAM Int, LogRun insertionSortByKey pairedRows isam ∧
      Returns (isam.search · 0) (.ok [0]) ∧ Returns (isam.remove · 0) (.ok [0], isam') ∧
      Returns (isam'.search · 0) (.ok [1]) ∧ ¬ isam.RemovesKey pairedRows 0 := by
  have r0 : LogRun insertionSortByKey pairedRows
      ⟨pairedLevels.1, pairedLevels.2.idxFile, pairedLevels.2.dtFile, []⟩ :=
    .load (fun _ => default) (by decide)
      (.of_eq (bulkInsert_of_levels (by decide) pairedLevels rfl (by decide +kernel)))
  have hbefore : Returns (ISAM.search
      ⟨pairedLevels.1, pairedLevels.2.idxFile, pairedLevels.2.dtFile, []⟩ · 0) (.ok [0]) :=
    .of_add 5 fun _ => rfl
  have hremove : Returns (ISAM.remove
      ⟨pairedLevels.1, pairedLevels.2.idxFile, pairedLevels.2.dtFile, []⟩ · 0) (.ok [0], _) :=
    .of_add 5 fun _ => rfl
  refine ⟨insertionSortByKey_spec, _, _, r0, hbefore, hremove, .of_add 5 fun _ => rfl, fun hcon => ?_⟩
  have hafter := hcon.after_eq_nil hbefore hremove (.of_add 5 fun _ => rfl) nofun
  exact absurd hafter (List.cons_ne_nil 1 [])

end ISAM

end Rdbms
