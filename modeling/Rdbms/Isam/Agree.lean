import Rdbms.Isam.Frame

/-!
# The two lookups of a key

`search` comes back with the first record of a key on the chain of the key, `range_search` with all
records of the key on the chains that it goes through. It leaves a chain whose first page has no
records at once (`seen`), while `search` looks behind such a page. So the two agree when the records
that `range_search` finds are all on the chain of the key, and there is at most one
(`lookups_agree_iff`); behind a first page without records they agree when the positions happen to be
the same ones.
-/

namespace Rdbms

namespace ISAM
variable {κ : Type} [LinearOrder κ] {isam : ISAM κ} {P : Partition κ Int 27}
  {C C' : Nat → List (Int × DataPage κ)} {B B' : Nat → List (Entry κ Int)}
  {cells : List (Int × DataPage κ)} {E F K : List (Entry κ Int)} {pos : Int} {q : Nat} {k : κ}

/-! ## What `range_search` sees -/

/-- The first page of the chain has no records. -/
def vacant (cells : List (Int × DataPage κ)) : Bool := cells.head?.any (·.2.isEmpty)

/-- What `range_search` sees of a chain. -/
def seen {α : Type} (cells : List (Int × DataPage κ)) (l : List α) : List α :=
  if vacant cells then [] else l

/-- Along one chain: the key at the end is the one from before the chain, when it is not seen, or one
of the chain's. -/
theorem range_chain_seen (lo hi : κ) (s : κ × List Int) (h : isam.Chain pos cells) (hne : cells ≠ [])
    (hok : PagesOk cells) (hE : List.Forall₂ (IsEntry isam.dupFile) (live cells) E) :
    ∃ l, LoopReturns (isam.rangeChainBody lo hi) (pos, s) (l, s.2 ++ hits lo hi (seen cells E)) ∧
      (vacant cells = true ∧ l = s.1 ∨ ∃ e ∈ E, e.key = l) := by
  obtain ⟨c, rest, rfl⟩ := List.exists_cons_of_ne_nil hne
  obtain ⟨-, hpage, -⟩ := Chain.cons_iff.1 h
  by_cases hv : c.2.isEmpty = true
  · have hvacant : vacant (c :: rest) = true := by simpa [vacant] using hv
    refine ⟨s.1, .done (.of_eq fun fuel => ?_), .inl ⟨hvacant, rfl⟩⟩
    rw [seen, if_pos hvacant, Partition.hits_nil, List.append_nil, rangeChainBody, hpage]
    simp only [Option.bind_eq_bind, Option.bind_some, if_pos hv]
  · have hvacant : ¬ vacant (c :: rest) = true := by simpa [vacant] using hv
    have hcount : c.2.count ≠ 0 := fun h0 => hv (decide_eq_true h0)
    have hall : ∀ d ∈ c :: rest, PageOk d := List.forall_mem_cons.2
      ⟨⟨Nat.one_le_iff_ne_zero.2 hcount, hok.le c (.head _)⟩, hok.tail⟩
    obtain ⟨e, he, hret⟩ := range_chain lo hi s h hne hall hE
    rw [seen, if_neg hvacant]
    exact ⟨e.key, hret, .inr ⟨e, he, rfl⟩⟩

/-- The entries that `range_search` sees from the bucket `q` on. -/
def seenFrom (C : Nat → List (Int × DataPage κ)) (B : Nat → List (Entry κ Int)) (q : Nat) :
    List (Entry κ Int) :=
  (List.range' q (27 - q)).flatMap fun r => seen (C r) (B r)

omit [LinearOrder κ] in
/-- A chain that is not vacant is seen, among the others. -/
theorem sublist_seen {α : Type} {l : Nat → List α} (hq : q < 27) (hv : ¬ vacant (C q) = true) :
    (l q).Sublist ((List.range' 0 27).flatMap fun r => seen (C r) (l r)) := by
  have hmem : q ∈ List.range' 0 27 := by
    rw [List.mem_range'_1]
    omega
  have hseen : seen (C q) (l q) = l q := if_neg hv
  rw [List.flatMap_def]
  exact hseen ▸ List.sublist_flatten_of_mem (List.mem_map_of_mem hmem)

omit [LinearOrder κ] in
/-- What is seen from a bucket on is what is seen of it, and of the later ones. -/
theorem seenFrom_of_lt (h : q < 27) : seenFrom C B q = seen (C q) (B q) ++ seenFrom C B (q + 1) := by
  rw [seenFrom, seenFrom, show 27 - q = (27 - (q + 1)) + 1 by omega, List.range'_succ,
    List.flatMap_cons]

omit [LinearOrder κ] in
/-- What is seen from a bucket on is in a later bucket. -/
theorem mem_seenFrom {e : Entry κ Int} (h : e ∈ seenFrom C B q) : ∃ r, q ≤ r ∧ r < 27 ∧ e ∈ B r := by
  obtain ⟨r, hr, he⟩ := List.mem_flatMap.1 h
  rw [List.mem_range'_1] at hr
  rw [seen] at he
  split_ifs at he
  · cases he
  · exact ⟨r, hr.1, by omega, he⟩

/-- Over the chains from the bucket `q` on, as long as no key above the range has been read, or there
is none in the range. -/
theorem range_buckets_seen (lo hi : κ) (h : isam.Linked P C B) (hw : Within P B) :
    ∀ (q : Nat) (s : κ × List Int), q < 27 → s.1 ≤ hi ∨ hi < lo →
      LoopReturns (isam.rangeBody lo hi) (dataPageLayout.pos q, s)
        (s.2 ++ hits lo hi (seenFrom C B q)) := by
  intro q s hq hs
  induction hd : 27 - q generalizing q s with
  | zero => omega
  | succ d ih =>
    obtain ⟨l, hchain, hl⟩ := range_chain_seen lo hi s (h.buckets.chain q hq) (h.chain_ne hq)
      (h.pages q hq) (h.buckets.entries q hq)
    have hnext : dataPageLayout.pos q + 152 = dataPageLayout.pos (q + 1) := Layout.pos_succ.symm
    have hlt : dataPageLayout.pos (q + 1) < lastPos ↔ q + 1 < 27 := by
      simp only [dataPageLayout, Layout.pos, lastPos]
      omega
    rw [seenFrom_of_lt hq, Partition.hits_append, ← List.append_assoc]
    have hbody : ∀ {res}, (if q + 1 < 27 ∧ l ≤ hi then
          .inl (dataPageLayout.pos (q + 1), l, s.2 ++ hits lo hi (seen (C q) (B q)))
        else .inr (s.2 ++ hits lo hi (seen (C q) (B q)))) = res →
        Returns (isam.rangeBody lo hi · (dataPageLayout.pos q, s)) res := by
      rintro _ rfl
      filter_upwards [hchain.returns] with fuel hfuel
      rw [rangeBody, hfuel]
      simp only [Option.bind_eq_bind, Option.bind_some, hnext, hlt]
      split_ifs <;> rfl
    by_cases hgo : q + 1 < 27 ∧ l ≤ hi
    · exact .step (hbody (if_pos hgo)) (ih (q + 1) _ hgo.1 (.inl hgo.2) (by omega))
    · have hrest : hits lo hi (seenFrom C B (q + 1)) = [] := by
        by_cases hq1 : q + 1 < 27
        · rcases hl with ⟨-, rfl⟩ | ⟨e, he, rfl⟩
          · rcases hs with hs | hs
            · exact absurd ⟨hq1, hs⟩ hgo
            · exact Partition.hits_eq_nil fun a _ hin => (hin.1.trans hin.2).not_gt hs
          · -- a key above the range: what follows is not below the separator behind it
            refine Partition.hits_eq_nil fun a ha hin => ?_
            obtain ⟨r, hqr, hr, ha⟩ := mem_seenFrom ha
            have h1 := (hw q hq e he).2 q le_rfl hq1
            have h2 := (hw r hr a ha).1 q (by omega)
            exact hgo ⟨hq1, (h1.trans h2).trans hin.2⟩
        · rw [seenFrom, show 27 - (q + 1) = 0 by omega]
          rfl
      rw [hrest, List.append_nil]
      exact .done (hbody (if_neg hgo))

/-- Nothing in front of the bucket where a range starts belongs to the range. -/
theorem hits_seenFrom (lo hi : κ) (hw : Within P B) (hq : P.Route (· < lo) q) : ∀ r ≤ q,
    hits lo hi (seenFrom C B r) = hits lo hi (seenFrom C B q) := by
  intro r hr
  induction hd : q - r generalizing r with
  | zero => rw [show r = q by omega]
  | succ d ih =>
    have hlt := hq.lt
    rw [seenFrom_of_lt (by omega), Partition.hits_append, Partition.hits_eq_nil, List.nil_append]
    · exact ih (r + 1) (by omega) (by omega)
    · rintro a ha ⟨hb, -⟩
      rw [seen] at ha
      split_ifs at ha
      · cases ha
      · have h1 := (hw r (by omega) a ha).2 r le_rfl (by omega)
        exact absurd hb (h1.trans_lt (hq.before r (by omega))).not_ge

/-- `range_search` answers with all the entries of the range that it sees. -/
theorem Linked.rangeSearch (h : isam.Linked P C B) (hw : Within P B) (lo hi : κ) :
    Returns (isam.rangeSearch · lo hi) (.ok (hits lo hi (seenFrom C B 0))) := by
  obtain ⟨q, hdescend, hroute⟩ := h.root.descend_lt lo
  have hloop := (range_buckets_seen lo hi h hw q (lo, []) hroute.lt (le_or_gt lo hi)).returns
  rw [List.nil_append, ← hits_seenFrom lo hi hw hroute 0 (Nat.zero_le _)] at hloop
  refine (hdescend.bind (g := fun fuel dataPos =>
    (loop (isam.rangeBody lo hi fuel) fuel (dataPos, lo, [])).map Except.ok)
    (hloop.map Except.ok)).congr fun fuel => ?_
  rw [ISAM.rangeSearch, if_neg h.root.root_ne]
  rfl

/-- For one key. -/
theorem Linked.rangeSearch_self (h : isam.Linked P C B) (hw : Within P B) (k : κ) :
    Returns (isam.rangeSearch · k k)
      (.ok (((seenFrom C B 0).filter (·.key = k)).flatMap (·.values))) := by
  have hhits : hits k k (seenFrom C B 0) = ((seenFrom C B 0).filter (·.key = k)).flatMap (·.values) := by
    rw [hits]
    congr 1
    refine List.filter_congr fun e _ => ?_
    exact decide_eq_decide.2 ⟨fun hk => le_antisymm hk.2 hk.1, fun hk => ⟨hk.ge, hk.le⟩⟩
  rw [← hhits]
  exact h.rangeSearch hw k k

/-! ## The records of a key -/

omit [LinearOrder κ] in
/-- A record stands for one entry. -/
theorem IsEntry.unique {dupFile : List (ISAMRecord κ)} {record : ISAMRecord κ} {e e' : Entry κ Int}
    (h : IsEntry dupFile record e) (h' : IsEntry dupFile record e') : e = e' := by
  obtain ⟨hkey, hfirst, chain, hchain, hrest⟩ := h
  obtain ⟨hkey', hfirst', chain', hchain', hrest'⟩ := h'
  obtain ⟨rfl, -⟩ := Path.unique hchain Layout.read_neg_one hchain' Layout.read_neg_one
  cases e
  cases e'
  simp_all

omit [LinearOrder κ] in
/-- Records stand for one list of entries. -/
theorem entries_unique {dupFile records : List (ISAMRecord κ)}
    (h : List.Forall₂ (IsEntry dupFile) records E) (h' : List.Forall₂ (IsEntry dupFile) records F) :
    E = F := by
  induction h generalizing F with
  | nil =>
    cases h'
    rfl
  | cons he _ ih =>
    cases h' with
    | cons he' h' => rw [he.unique he', ih h']

/-- The records of a key and its entries. -/
theorem filter_forall₂ {dupFile records : List (ISAMRecord κ)}
    (h : List.Forall₂ (IsEntry dupFile) records E) (k : κ) :
    List.Forall₂ (IsEntry dupFile) (records.filter (·.key = k)) (E.filter (·.key = k)) := by
  induction h with
  | nil => exact .nil
  | @cons r e _ _ he _ ih =>
    by_cases hk : r.key = k
    · have hk' : e.key = k := he.1.symm.trans hk
      rw [List.filter_cons, List.filter_cons, if_pos (decide_eq_true hk),
        if_pos (decide_eq_true hk')]
      exact .cons he ih
    · have hk' : ¬ e.key = k := fun hc => hk (he.1.trans hc)
      rw [List.filter_cons, List.filter_cons, if_neg (by simpa using hk), if_neg (by simpa using hk')]
      exact ih

omit [LinearOrder κ] in
/-- The first record stands for the first entry. -/
theorem head?_forall₂ {dupFile records : List (ISAMRecord κ)}
    (h : List.Forall₂ (IsEntry dupFile) records E) :
    List.Forall₂ (IsEntry dupFile) records.head?.toList E.head?.toList := by
  cases h with
  | nil => exact .nil
  | cons he _ => exact .cons he .nil

omit [LinearOrder κ] in
/-- Every entry has a value. -/
theorem flatMap_values_eq_nil : E.flatMap (·.values) = [] ↔ E = [] := by
  rw [List.flatMap_eq_nil_iff]
  refine ⟨fun h => List.eq_nil_iff_forall_not_mem.2 fun e he => ?_, by rintro rfl; simp⟩
  exact List.cons_ne_nil _ _ (h e he)

omit [LinearOrder κ] in
/-- The values of the first entry of some are the values of all when there is at most one. -/
theorem head_perm_iff (hsub : F.Sublist K) :
    (F.head?.toList.flatMap (·.values)).Perm (K.flatMap (·.values)) ↔ K = F ∧ K.length ≤ 1 := by
  constructor
  · intro h
    cases F with
    | nil =>
      have hK : K = [] := flatMap_values_eq_nil.1 (List.nil_perm.1 h)
      exact ⟨hK, by simp [hK]⟩
    | cons e F =>
      obtain ⟨rest, hrest⟩ := hsub.exists_perm_append
      have hlen := (h.trans (hrest.flatMap_right _)).length_eq
      have hnil : (F ++ rest).flatMap (·.values) = [] := by
        rw [← List.length_eq_zero_iff]
        simpa using hlen
      have happ := flatMap_values_eq_nil.1 hnil
      rw [List.cons_append, happ] at hrest
      obtain ⟨rfl, -⟩ := List.append_eq_nil_iff.1 happ
      rw [List.perm_singleton] at hrest
      exact ⟨hrest, by rw [hrest]; exact le_rfl⟩
  · rintro ⟨rfl, hlen⟩
    match K with
    | [] => exact .refl _
    | [e] => exact .refl _

/-- The records of a key on the chains that `range_search` sees. -/
def seenWith (C : Nat → List (Int × DataPage κ)) (k : κ) : List (ISAMRecord κ) :=
  ((List.range' 0 27).flatMap fun q => seen (C q) (live (C q))).filter (·.key = k)

/-- Two lists of records stand for the same positions, with their duplicates. -/
def SamePositions (dupFile records records' : List (ISAMRecord κ)) : Prop :=
  ∃ E E', List.Forall₂ (IsEntry dupFile) records E ∧ List.Forall₂ (IsEntry dupFile) records' E' ∧
    (E.flatMap (·.values)).Perm (E'.flatMap (·.values))

/-- What the pages have of a key. When the first page of the chain of the key has records: the records
of the key on the chains that are seen are those on its own chain, and there is at most one. When it
has none: these records stand for the positions of the first record of the key behind it. -/
def Alike (isam : ISAM κ) (k : κ) : Prop :=
  ∃ (C : Nat → List (Int × DataPage κ)) (q : Nat), q < 27 ∧
    (∀ r < 27, isam.Chain (dataPageLayout.pos r) (C r)) ∧
    Returns (isam.descend (· ≤ k) · isam.root) (dataPageLayout.pos q) ∧
    if vacant (C q) then
      SamePositions isam.dupFile ((live (C q)).find? (·.key = k)).toList (seenWith C k)
    else seenWith C k = (live (C q)).filter (·.key = k) ∧ (seenWith C k).length ≤ 1

omit [LinearOrder κ] in
/-- A position starts one chain. -/
theorem Chain.unique {cells' : List (Int × DataPage κ)} (h : isam.Chain pos cells)
    (h' : isam.Chain pos cells') : cells = cells' := by
  have hend : isam.cellAt endOfFile = none := by
    rw [cellAt, readPage, Layout.read_neg_one]
    rfl
  exact (Path.unique h hend h' hend).1

omit [LinearOrder κ] in
/-- What is seen of records stands for what is seen of their entries. -/
theorem seen_forall₂ {dupFile records : List (ISAMRecord κ)}
    (h : List.Forall₂ (IsEntry dupFile) records E) :
    List.Forall₂ (IsEntry dupFile) (seen cells records) (seen cells E) := by
  unfold seen
  split_ifs
  · exact .nil
  · exact h

/-- The records of a key that are seen stand for the entries of the key that are. -/
theorem Linked.seenWith (h : isam.Linked P C B) (k : κ) :
    List.Forall₂ (IsEntry isam.dupFile) (seenWith C k) ((seenFrom C B 0).filter (·.key = k)) := by
  refine filter_forall₂ ?_ k
  rw [seenFrom, Nat.sub_zero]
  have hlt : ∀ q ∈ List.range' 0 27, q < 27 := fun q hq => by
    rw [List.mem_range'_1] at hq
    omega
  generalize List.range' 0 27 = l at hlt
  induction l with
  | nil => exact .nil
  | cons q l ih =>
    rw [List.flatMap_cons, List.flatMap_cons]
    exact List.rel_append (seen_forall₂ (h.buckets.entries q (hlt q (.head _))))
      (ih fun r hr => hlt r (.tail _ hr))

/-- In terms of the entries. -/
theorem Linked.alike_iff (h : isam.Linked P C B) (hroute : P.Route (· ≤ k) q)
    (hdescend : Returns (isam.descend (· ≤ k) · isam.root) (dataPageLayout.pos q)) :
    (firstValues (B q) k).Perm (((seenFrom C B 0).filter (·.key = k)).flatMap (·.values)) ↔
      isam.Alike k := by
  have hentries := h.buckets.entries q hroute.lt
  have hrecords := h.seenWith k
  have hfirst : firstValues (B q) k = ((B q).find? (·.key = k)).toList.flatMap (·.values) := by
    rw [firstValues]
    cases (B q).find? (·.key = k) with
    | none => rfl
    | some e => simp
  have hheads : List.Forall₂ (IsEntry isam.dupFile) ((live (C q)).find? (·.key = k)).toList
      ((B q).find? (·.key = k)).toList := by
    rw [← List.head?_filter, ← List.head?_filter]
    exact head?_forall₂ (filter_forall₂ hentries k)
  have hcond : (if vacant (C q) then
        SamePositions isam.dupFile ((live (C q)).find? (·.key = k)).toList (ISAM.seenWith C k)
      else ISAM.seenWith C k = (live (C q)).filter (·.key = k) ∧ (ISAM.seenWith C k).length ≤ 1) ↔
      (firstValues (B q) k).Perm (((seenFrom C B 0).filter (·.key = k)).flatMap (·.values)) := by
    rw [hfirst]
    split_ifs with hv
    · constructor
      · rintro ⟨E, E', hE, hE', hperm⟩
        rwa [entries_unique hE hheads, entries_unique hE' hrecords] at hperm
      · exact fun hperm => ⟨_, _, hheads, hrecords, hperm⟩
    · -- the chain of the key is seen, and its records are among all that are
      have hown := filter_forall₂ hentries k
      have hownR := sublist_seen (l := fun r => live (C r)) hroute.lt hv
      have hownE : (B q).Sublist (seenFrom C B 0) := sublist_seen hroute.lt hv
      rw [← List.head?_filter, head_perm_iff (hownE.filter _)]
      have hlen := hrecords.length_eq
      constructor
      · rintro ⟨heq, hle⟩
        refine ⟨entries_unique (heq ▸ hrecords) hown, ?_⟩
        rwa [← hlen]
      · rintro ⟨heq, hle⟩
        rw [hlen]
        refine ⟨((hownR.filter _).eq_of_length ?_).symm, hle⟩
        rw [hown.length_eq, ← heq, ← hlen]
        rfl
  constructor
  · intro hperm
    exact ⟨C, q, hroute.lt, h.buckets.chain, hdescend, hcond.2 hperm⟩
  · rintro ⟨C', q', hq', hchain', hdescend', halike⟩
    obtain rfl : q = q' := Layout.pos_inj (hdescend.unique hdescend')
    have hC : ∀ r < 27, C' r = C r := fun r hr => (hchain' r hr).unique (h.buckets.chain r hr)
    have hseen : ISAM.seenWith C' k = ISAM.seenWith C k := by
      rw [ISAM.seenWith, ISAM.seenWith]
      congr 1
      refine List.flatMap_congr fun r hr => ?_
      rw [List.mem_range'_1] at hr
      rw [hC r (by omega)]
    rw [hC q hq', hseen] at halike
    exact hcond.1 halike

/-! ## Runs -/

variable [IntCast κ] {sort : List (ISAMRecord κ) → List (ISAMRecord κ)}

/-- In every state that a load, insertions and removals lead to, and for every key: both lookups come
back, and the positions are the same exactly when the pages have the same of the key for both. -/
theorem lookups_agree_iff
    (hsort : ∀ l, (sort l).Perm l ∧ (sort l).Pairwise fun a b => a.key ≤ b.key)
    (h : Reached sort isam) (k : κ) :
    ∃ res res', Returns (isam.search · k) (.ok res) ∧ Returns (isam.rangeSearch · k k) (.ok res') ∧
      (res.Perm res' ↔ isam.Alike k) := by
  obtain ⟨P, C, B, hlinked, hw⟩ := h.linked hsort
  obtain ⟨q, hdescend, hroute⟩ := hlinked.root.descend_le k
  have hsearch := search_of_descend hlinked.root.root_ne hdescend
    (hlinked.buckets.chain q hroute.lt) (hlinked.buckets.entries q hroute.lt)
  exact ⟨_, _, hsearch, hlinked.rangeSearch_self hw k, hlinked.alike_iff hroute hdescend⟩

/-- After a load of 81 rows with the keys 0 to 80. -/
theorem lookups_agree_iff_sample : ∃ isam : ISAM Int, Reached sortByKey isam ∧
    ∃ res res', Returns (isam.search · 5) (.ok res) ∧ Returns (isam.rangeSearch · 5 5) (.ok res') ∧
      (res.Perm res' ↔ isam.Alike 5) := by
  obtain ⟨isam, -, -, hret, -, -⟩ := bulkInsert_wellFormed sortByKey_spec
    (fun _ => default) sampleRows (by decide)
  have h : Reached sortByKey isam := .load _ _ (by decide) hret
  exact ⟨isam, h, lookups_agree_iff sortByKey_spec h 5⟩

/-- Rows with the keys 0 to 40, all but the last one twice. -/
def pairedRows : List (Int × Int) := (List.range 81).map fun i => ((i / 2 : Int), (i : Int))

/-- What the index pages and the first data pages over these rows are. -/
def pairedLevels : Int × Builder Int :=
  buildLevels (insertionSortByKey (pairedRows.map fun p => { key := p.1, pos := p.2 }))
    fun _ => default

/-- Two rows with the key 0 are loaded. `search` answers with one of them. -/
theorem not_lookups_agree :
    (∀ l, (insertionSortByKey l).Perm l ∧
      (insertionSortByKey l).Pairwise fun a b => a.key ≤ b.key) ∧
    ∃ isam : ISAM Int, Reached insertionSortByKey isam ∧
      Returns (isam.search · 0) (.ok [0]) ∧ Returns (isam.rangeSearch · 0 0) (.ok [0, 1]) := by
  have r0 : Reached insertionSortByKey
      ⟨pairedLevels.1, pairedLevels.2.idxFile, pairedLevels.2.dtFile, []⟩ :=
    .load (fun _ => default) pairedRows (by decide)
      (.of_eq (bulkInsert_of_levels (by decide) pairedLevels rfl (by decide +kernel)))
  exact ⟨insertionSortByKey_spec, _, r0, .of_add 5 fun _ => rfl, .of_add 5 fun _ => rfl⟩

end ISAM

end Rdbms
