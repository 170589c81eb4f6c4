import Rdbms.Sequential.Invariant

/-!
# Queries on the sequential index

On a well-formed index `search` answers with the values of the key in the multimap that the chain
holds (`search_returns`), and `rangeSearch` with the values of the keys in the range
(`rangeSearch_returns`). Both start from the record where the search for the lower bound stops
(`rangeSearchStart_returns`): all that is before it is below the bound and all that is behind it is
above.
-/

namespace Rdbms

namespace SequentialIndex
variable {κ : Type} [KeyType κ] {si : SequentialIndex κ} {c : List (SequentialIndexRecord κ)}
  {m : Multimap κ Int} {k : κ}

omit [KeyType κ] in
/-- A record has the key of its entry. -/
theorem key_of_recordHolds (r : SequentialIndexRecord κ) (e : Entry κ Int)
    (h : si.RecordHolds r e) : r.data = e.key := h.1

/-- Collecting the positions of a record of the chain comes back with the values of its key. -/
theorem Contents.getAllRaw (h : si.Contents c m) {r : SequentialIndexRecord κ} (hr : r ∈ c)
    (records : List Int) :
    Returns (si.getAllRawCurrentRecords · r records) (records ++ m.values r.data) := by
  obtain ⟨e, he, hv⟩ := Multimap.Represented.values_of_mem key_of_recordHolds h hr
  rw [hv]
  exact getAllRaw_returns he.2 records

/-- A key without a record has no values. -/
theorem Contents.values_eq_nil (h : si.Contents c m) (hk : ∀ r ∈ c, r.data ≠ k) :
    m.values k = [] :=
  Multimap.Represented.values_of_not_mem key_of_recordHolds h hk

/-- The keys on the chain are those of the pairs it stands for. -/
theorem Contents.stored_iff (hm : si.Contents c m) :
    (∃ r ∈ c, r.data = k) ↔ ∃ v, (k, v) ∈ m.pairs := by
  constructor
  · rintro ⟨r, hr, rfl⟩
    obtain ⟨e, -, hvalues⟩ := Multimap.Represented.values_of_mem key_of_recordHolds hm hr
    refine ⟨e.first, Multimap.mem_pairs_iff.2 ?_⟩
    rw [hvalues]
    exact .head _
  · rintro ⟨v, hv⟩
    by_contra hnone
    push Not at hnone
    rw [Multimap.mem_pairs_iff, hm.values_eq_nil hnone] at hv
    exact nomatch hv

/-! ## The walk through a run of overflow records -/

/-- The walk stops at the first record of the run that is not below the key, or at its last
record, and collects the positions there if it is the record of the key. -/
theorem searchAuxBody_run {values records : List Int} : ∀ {A : List (SequentialIndexRecord κ)}
    {a : SequentialIndexRecord κ} {l' : Int × FilePos},
    (∀ l r, si.readLink l = some r → r.loc = l) → si.AuxRun a.link A l' →
    SortedBy (·.data) (a :: A) →
    (∀ x ∈ a :: A, x.data = k →
      Returns (si.getAllRawCurrentRecords · x records) (records ++ values)) →
    ∃ A1 x A2 found, a :: A = A1 ++ x :: A2 ∧
      LoopReturns (fun n => si.searchAuxBody n k records) (a, .aux) (found, x) ∧
      (∀ y ∈ A1, y.data < k) ∧ (x.data < k → A2 = []) ∧
      found = if x.data = k then records ++ values else records
  | A, a, l', hown, hrun, hsort, hval => by
    rcases lt_trichotomy a.data k with hlt | heq | hgt
    · cases A with
      | nil =>
        have hfile : a.nextFile = .indexFile := (hrun.file_eq_iff hown).2 rfl
        refine ⟨[], a, [], records, rfl, .done (.of_eq fun n => ?_), by simp, by simp, ?_⟩
        · simp only [searchAuxBody, if_pos hlt.le, if_neg hlt.ne, if_pos (Or.inl hfile)]
        · rw [if_neg hlt.ne]
      | cons b A =>
        obtain ⟨hb, hbf, hrun'⟩ := AuxRun.cons_iff.1 hrun
        have hfile : a.nextFile ≠ .indexFile := fun hc => by
          simpa using (hrun.file_eq_iff hown).1 hc
        have hread : si.moveReadRecord .aux a.nextPos a = (b, .aux) :=
          moveReadRecord_aux_of_readLink hb hfile a
        have hstep : ∀ n, si.searchAuxBody n k records (a, .aux) = some (.inl (b, .aux)) := fun n => by
          have hstop : ¬ (a.nextFile = .indexFile ∨ a.nextPos = endOfFile) :=
            not_or.2 ⟨hfile, ne_endOfFile_of_readLink hb⟩
          simp only [searchAuxBody, if_pos hlt.le, if_neg hlt.ne, if_neg hstop, hread]
        obtain ⟨A1, x, A2, found, hA, hret, h1, h2, hfound⟩ := searchAuxBody_run hown hrun'
          hsort.tail fun y hy => hval y (.tail _ hy)
        refine ⟨a :: A1, x, A2, found, by rw [hA]; rfl, .step (.of_eq hstep) hret, ?_, h2, hfound⟩
        intro y hy
        rcases List.mem_cons.1 hy with rfl | hy
        · exact hlt
        · exact h1 y hy
    · refine ⟨[], a, A, records ++ values, rfl, .done ?_, by simp, fun h => absurd heq h.ne,
        by rw [if_pos heq]⟩
      refine ((hval a (.head _) heq).map fun found => Sum.inr (found, a)).congr fun n => ?_
      simp only [searchAuxBody, if_pos heq.le, if_pos heq]
    · refine ⟨[], a, A, records, rfl, .done (.of_eq fun n => ?_), by simp,
        fun h => absurd h hgt.not_gt, by rw [if_neg hgt.ne']⟩
      simp only [searchAuxBody, if_neg hgt.not_ge]

/-- Where a query for `k` starts: everything before the record is below the key and everything
behind it is above, and the positions are those of the key. -/
def StartsAt (c : List (SequentialIndexRecord κ)) (m : Multimap κ Int) (k : κ) :
    List Int × SequentialIndexRecord κ → Prop
  | (found, x) => found = m.values k ∧ ∃ P S, c = P ++ x :: S ∧ (∀ y ∈ P, y.data < k) ∧
      ∀ y ∈ S, k < y.data

/-- A key that lies around a record of the chain but is not its key is not stored. -/
theorem Contents.values_eq_nil_of_around (hm : si.Contents c m)
    {P S : List (SequentialIndexRecord κ)} {x : SequentialIndexRecord κ} (hc : c = P ++ x :: S)
    (hP : ∀ y ∈ P, y.data < k) (hS : ∀ y ∈ S, k < y.data) (hx : x.data ≠ k) :
    m.values k = [] := by
  refine hm.values_eq_nil fun y hy => ?_
  rw [hc, List.mem_append, List.mem_cons] at hy
  rcases hy with hy | rfl | hy
  · exact (hP y hy).ne
  · exact hx
  · exact (hS y hy).ne'

/-- The walk through the run of a gap. -/
theorem Gap.walk_returns (h : si.Linked c) (hm : si.Contents c m)
    {P A S : List (SequentialIndexRecord κ)} {l l' : Int × FilePos} (hg : si.Gap c k P l A l' S)
    (hA : A ≠ []) (sir : SequentialIndexRecord κ) :
    ∃ res, Returns (searchAuxFile.walk si · k [] l.1 sir) res ∧ StartsAt c m k res := by
  obtain ⟨a, A, rfl⟩ := List.exists_cons_of_ne_nil hA
  obtain ⟨ha, -, hrun⟩ := AuxRun.cons_iff.1 hg.run
  have hfile : l.2 ≠ .indexFile := fun hc => hA ((hg.run.file_eq_iff h.own).1 hc)
  have hsort : SortedBy (·.data) (a :: A) := by
    have := h.sorted
    rw [hg.eq] at this
    exact (SortedBy.append_iff.1 (SortedBy.append_iff.1 this).2.1).1
  have hval : ∀ x ∈ a :: A, x.data = k →
      Returns (si.getAllRawCurrentRecords · x []) ([] ++ m.values k) := by
    rintro x hx rfl
    refine hm.getAllRaw ?_ []
    rw [hg.eq]
    exact List.mem_append_right _ (List.mem_append_left _ hx)
  obtain ⟨A1, x, A2, found, hx, hret, h1, h2, hfound⟩ := searchAuxBody_run h.own hrun hsort hval
  have hc : c = (P ++ A1) ++ x :: (A2 ++ S) := by rw [hg.eq, hx]; simp
  have hbefore : ∀ y ∈ P ++ A1, y.data < k := fun y hy =>
    (List.mem_append.1 hy).elim (hg.lt y) (h1 y)
  have hafter : ∀ y ∈ A2 ++ S, k < y.data := fun y hy => by
    rcases List.mem_append.1 hy with hy' | hy'
    · -- the walk has not stopped below the key in front of a record
      have hxk : k ≤ x.data := by
        by_contra hlt
        rw [h2 (not_le.1 hlt)] at hy'
        cases hy'
      rw [hx] at hsort
      exact hxk.trans_lt (hsort.around.2 y hy')
    · exact hg.gt y hy'
  refine ⟨(found, x), ?_, ?_, P ++ A1, A2 ++ S, hc, hbefore, hafter⟩
  · refine hret.returns.congr fun n => ?_
    rw [searchAuxFile.walk, moveReadRecord_aux_of_readLink ha hfile]
  · rw [hfound]
    split
    · rfl
    · next hne => exact (hm.values_eq_nil_of_around hc hbefore hafter hne).symm

/-- `searchAuxFile` with the record behind which the key belongs. -/
theorem searchAuxFile_of_not_header {bsr : BinarySearchResponse κ} (hb : bsr.header = false)
    (n : Nat) : si.searchAuxFile n k bsr [] =
      if (gapRecord bsr).nextFile = .indexFile then some ([], gapRecord bsr)
      else searchAuxFile.walk si n k [] (gapRecord bsr).nextPos (gapRecord bsr) := by
  unfold searchAuxFile gapRecord
  rw [hb, if_neg Bool.false_ne_true]
  split <;> rfl

/-- The search in the overflow file, after the binary search has found the gap of the key. -/
theorem searchAuxFile_returns (h : si.Linked c) (hm : si.Contents c m)
    {bsr : BinarySearchResponse κ} (hf : Found si k bsr) (hne : bsr.location ≠ .recCur) :
    ∃ res, Returns (si.searchAuxFile · k bsr []) res ∧ StartsAt c m k res := by
  cases h.gapAt hf hne with
  | header A S l' location header sih gap next =>
    obtain ⟨S', rfl⟩ := next
    by_cases hA : A = []
    · have hfile : si.header.nextFile = .indexFile := (gap.run.file_eq_iff h.own).2 hA
      have hc : c = [] ++ bsr.sir :: S' := by rw [gap.eq, hA]; rfl
      have hgt := gap.gt
      refine ⟨([], bsr.sir), .of_eq fun n => ?_, ?_, [], S', hc, by simp,
        fun y hy => hgt y (.tail _ hy)⟩
      · unfold searchAuxFile
        rw [if_pos header, sih, if_pos hfile]
      · exact (hm.values_eq_nil_of_around hc (by simp) (fun y hy => hgt y (.tail _ hy))
          (hgt _ (.head _)).ne').symm
    · have hfile : si.header.nextFile ≠ .indexFile := fun hc =>
        hA ((gap.run.file_eq_iff h.own).1 hc)
      obtain ⟨res, hres, hst⟩ := gap.walk_returns h hm hA bsr.sir
      refine ⟨res, hres.congr fun n => ?_, hst⟩
      unfold searchAuxFile
      rw [if_pos header, sih, if_neg hfile]
      rfl
  | record P A S l' location header mem gap =>
    have hlt : (gapRecord bsr).data < k := gap.lt _ (by simp)
    by_cases hA : A = []
    · have hfile : (gapRecord bsr).nextFile = .indexFile := (gap.run.file_eq_iff h.own).2 hA
      have hc : c = P ++ gapRecord bsr :: S := by rw [gap.eq, hA]; simp
      have hP : ∀ y ∈ P, y.data < k := fun y hy => gap.lt y (List.mem_append_left _ hy)
      refine ⟨([], gapRecord bsr), .of_eq fun n => ?_, ?_, P, S, hc, hP, gap.gt⟩
      · rw [searchAuxFile_of_not_header header, if_pos hfile]
      · exact (hm.values_eq_nil_of_around hc hP gap.gt hlt.ne).symm
    · have hfile : (gapRecord bsr).nextFile ≠ .indexFile := fun hc =>
        hA ((gap.run.file_eq_iff h.own).1 hc)
      obtain ⟨res, hres, hst⟩ := gap.walk_returns h hm hA (gapRecord bsr)
      refine ⟨res, hres.congr fun n => ?_, hst⟩
      rw [searchAuxFile_of_not_header header, if_neg hfile]
      rfl

/-! ## Searching for a key -/

/-- Both queries start in the same way. -/
theorem rangeSearchStart_returns (h : si.Linked c) (hm : si.Contents c m)
    {bsr : BinarySearchResponse κ} (hf : Found si k bsr) :
    ∃ res, Returns (si.rangeSearchStart · k bsr) res ∧ StartsAt c m k res := by
  by_cases hcur : bsr.location = .recCur
  · cases hf with
    | first _ location => rw [location] at hcur; cases hcur
    | prev _ _ location => rw [location] at hcur; cases hcur
    | next _ _ location => rw [location] at hcur; cases hcur
    | cur i hi location header sir data =>
      have hmem := (h.mem_index_iff.1 (List.getElem_mem hi)).1
      rw [← sir] at hmem data
      obtain ⟨P, S, hc⟩ := List.append_of_mem hmem
      have hsort := h.sorted
      rw [hc] at hsort
      have hval := hm.getAllRaw hmem []
      rw [data, List.nil_append] at hval
      refine ⟨(m.values k, bsr.sir), ?_, rfl, P, S, hc, ?_, ?_⟩
      · refine (hval.map fun found => (found, bsr.sir)).congr fun n => ?_
        rw [rangeSearchStart, if_pos location]
      · rw [← data]; exact hsort.around.1
      · rw [← data]; exact hsort.around.2
  · obtain ⟨res, hres, hst⟩ := searchAuxFile_returns h hm hf hcur
    refine ⟨res, hres.congr fun n => ?_, hst⟩
    rw [rangeSearchStart, if_neg hcur]

/-- `search` on an index file without records. -/
theorem search_empty (he : si.indexFile = []) (k : κ) : Returns (si.search · k) [] :=
  .of_eq fun n => by
    rw [search, binarySearch_empty he]
    rfl

/-! `search` goes on with what the binary search has come back with. -/

/-- The binary search has reported an empty file. -/
theorem search_of_empty {bsr : BinarySearchResponse κ} (hret : Returns (si.binarySearch · k) bsr)
    (hloc : bsr.location = .emptyFile) : Returns (si.search · k) [] := by
  filter_upwards [hret] with n hn
  simp only [search, hn, Option.bind_eq_bind, Option.bind_some, hloc]

/-- The binary search has found the key in the index file. -/
theorem search_of_cur {bsr : BinarySearchResponse κ} {res : List Int}
    (hret : Returns (si.binarySearch · k) bsr) (hloc : bsr.location = .recCur)
    (h : Returns (si.getAllRawCurrentRecords · bsr.sir []) res) : Returns (si.search · k) res := by
  filter_upwards [hret, h] with n hn hres
  simp only [search, hn, Option.bind_eq_bind, Option.bind_some, hloc, hres]

/-- The binary search has found the gap of the key. -/
theorem search_of_gap {bsr : BinarySearchResponse κ} {res : List Int}
    (hret : Returns (si.binarySearch · k) bsr) (hne : bsr.location ≠ .emptyFile)
    (hcur : bsr.location ≠ .recCur)
    (h : Returns (fun n => (si.searchAuxFile n k bsr []).map (·.1)) res) :
    Returns (si.search · k) res := by
  filter_upwards [hret, h] with n hn hres
  cases hloc : bsr.location with
  | emptyFile => exact absurd hloc hne
  | recCur => exact absurd hloc hcur
  | recPrev | recNext => simp only [search, hn, Option.bind_eq_bind, Option.bind_some, hloc, hres]

/-- `search` answers with the values of the key: the position of its record, then those of its
duplicates. -/
theorem search_returns (h : si.Linked c) (hm : si.Contents c m) (k : κ) :
    Returns (si.search · k) (m.values k) := by
  by_cases he : si.indexFile = []
  · have hc := h.empty he
    subst hc
    rw [hm.values_eq_nil (by simp)]
    exact search_empty he k
  · obtain ⟨bsr, hret, hf⟩ := binarySearch_found (h.searchable he) k
    obtain ⟨⟨found, x⟩, hres, rfl, -⟩ := rangeSearchStart_returns h hm hf
    have hfirst := hres.map (·.1)
    by_cases hcur : bsr.location = .recCur
    · refine search_of_cur hret hcur (hfirst.congr fun n => ?_)
      rw [rangeSearchStart, if_pos hcur, Option.map_map]
      exact Option.map_id'.symm
    · refine search_of_gap hret hf.location_ne hcur (hfirst.congr fun n => ?_)
      rw [rangeSearchStart, if_neg hcur]

/-! ## Searching for a range -/

/-- No entry below the lower bound is in the range. -/
theorem filter_range_of_lt {E : List (Entry κ Int)} {b e : κ} (h : ∀ x ∈ E, x.key < b) :
    E.filter (fun x => b ≤ x.key ∧ x.key ≤ e) = [] :=
  List.filter_eq_nil_iff.2 fun x hx => by simp [h x hx]

/-- The walk along the chain from a record that is not below the lower bound collects the values of
the keys up to the upper bound. -/
theorem rangeSearchBody_path {b e : κ} : ∀ {S : List (SequentialIndexRecord κ)}
    {x : SequentialIndexRecord κ} (records : List Int) {x' : Entry κ Int} {E : List (Entry κ Int)},
    Path si.readLink (·.link) x.link S endLink → SortedBy (·.data) (x :: S) → b ≤ x.data →
    List.Forall₂ si.RecordHolds (x :: S) (x' :: E) →
    LoopReturns (fun n => si.rangeSearchBody n e) ((x, {}), records) (records ++
      ((x' :: E).filter fun y => b ≤ y.key ∧ y.key ≤ e).flatMap (·.values))
  | S, x, records, x', E, hpath, hsort, hb, hE => by
    cases hE with
    | cons hx hE =>
      by_cases hle : x.data ≤ e
      · have hget : Returns (si.getAllRawCurrentRecords · x records) (records ++ x'.values) :=
          getAllRaw_returns hx.2 records
        have hin : (x' :: E).filter (fun y => b ≤ y.key ∧ y.key ≤ e) =
            x' :: E.filter fun y => b ≤ y.key ∧ y.key ≤ e := by
          rw [List.filter_cons_of_pos (by simpa [← hx.1] using ⟨hb, hle⟩)]
        rw [hin, List.flatMap_cons, ← List.append_assoc]
        cases S with
        | nil =>
          cases hE
          have hend : x.nextPos = endOfFile := (Prod.ext_iff.1 (Path.nil_iff.1 hpath)).1
          rw [List.filter_nil, List.flatMap_nil, List.append_nil]
          refine .done ((hget.map Sum.inr).congr fun n => ?_)
          simp only [rangeSearchBody, if_pos hle, if_pos hend]
        | cons y S =>
          obtain ⟨hy, hpath⟩ := Path.cons_iff.1 hpath
          have hpos : x.nextPos ≠ endOfFile := ne_endOfFile_of_readLink hy
          have hread : si.moveReadNext {} x.nextPos x.nextFile x = (y, {}) :=
            moveReadNext_of_readLink hy x
          have hxy : x.data < y.data := (SortedBy.cons_iff.1 hsort).1 y (.head _)
          cases E with
          | nil => cases hE
          | cons y' E =>
            refine .step ((hget.map fun found => Sum.inl ((y, {}), found)).congr fun n => ?_)
              (rangeSearchBody_path _ hpath hsort.tail (hb.trans hxy.le) hE)
            simp only [rangeSearchBody, if_pos hle, if_neg hpos, hread]
      · -- the record is above the range, and all that is behind it
        have hout : (x' :: E).filter (fun y => b ≤ y.key ∧ y.key ≤ e) = [] := by
          have hall := (Multimap.forall_key_iff key_of_recordHolds (.cons hx hE) (e < ·)).2
            fun y hy => (List.mem_cons.1 hy).elim (fun h => h ▸ not_le.1 hle)
              fun hy => (not_le.1 hle).trans ((SortedBy.cons_iff.1 hsort).1 y hy)
          exact List.filter_eq_nil_iff.2 fun y hy => by simp [(hall y hy).not_ge]
        rw [hout]
        refine .done (.of_eq fun n => ?_)
        simp only [rangeSearchBody, if_neg hle, List.flatMap_nil, List.append_nil]

/-- The range search after its start, from the record `x` where the search for the lower bound has
stopped: it moves on when the record is not above the bound, and then walks along the chain. -/
theorem rangeSearchFrom_returns (h : si.Linked c) (hm : si.Contents c m) {b e : κ} (hbe : b ≤ e)
    {P S : List (SequentialIndexRecord κ)} {x : SequentialIndexRecord κ} (hc : c = P ++ x :: S)
    (hP : ∀ y ∈ P, y.data < b) (hS : ∀ y ∈ S, b < y.data) :
    Returns (si.rangeSearchFrom · .index b e (m.values b, x)) (m.between b e) := by
  subst hc
  obtain ⟨E1, E2, hE, hE1, hE2⟩ := Multimap.forall₂_append_left hm
  cases hE2 with
  | @cons _ x' _ E2 hx hE2 =>
  have hsort := (SortedBy.append_iff.1 h.sorted).2.1
  obtain ⟨j, -, hpath⟩ := Path.of_append h.chain
  obtain ⟨-, hpath⟩ := Path.cons_iff.1 hpath
  have hE1lt := (Multimap.forall_key_iff key_of_recordHolds hE1 (· < b)).2 hP
  have hbetween : m.between b e =
      ((x' :: E2).filter fun y => b ≤ y.key ∧ y.key ≤ e).flatMap (·.values) := by
    rw [Multimap.between, hE, List.filter_append, filter_range_of_lt hE1lt, List.nil_append]
  by_cases hxb : x.data ≤ b
  · -- the record has been dealt with by the search for the bound
    have hval : m.between b e =
        m.values b ++ (E2.filter fun y => b ≤ y.key ∧ y.key ≤ e).flatMap (·.values) := by
      rcases hxb.lt_or_eq with hlt | heq
      · rw [hm.values_eq_nil_of_around rfl hP hS hlt.ne, hbetween,
          List.filter_cons_of_neg (by simp [← hx.1, hlt])]
        rfl
      · have hv : m.values b = x'.values := by
          rw [← heq, hx.1, Multimap.values_of_mem (by rw [hE]; simp)]
        rw [hv, hbetween, List.filter_cons_of_pos (by simp [← hx.1, heq, hbe]), List.flatMap_cons]
    simp only [rangeSearchFrom, if_pos hxb]
    cases S with
    | nil =>
      cases hE2
      have hend : x.nextPos = endOfFile ∧ x.nextFile = .indexFile :=
        Prod.ext_iff.1 (Path.nil_iff.1 hpath)
      refine .of_eq fun n => ?_
      rw [if_pos hend.2, if_pos hend.1, hval]
      simp
    | cons y S =>
      cases hE2 with
      | @cons _ y' _ E2 hy hE2 =>
      obtain ⟨hread, hpath⟩ := Path.cons_iff.1 hpath
      have hpos : x.nextPos ≠ endOfFile := ne_endOfFile_of_readLink hread
      have hloop := rangeSearchBody_path (m.values b) hpath hsort.tail
        (hS y (.head _)).le (.cons hy hE2) (e := e)
      rw [← hval] at hloop
      refine hloop.returns.congr fun n => ?_
      rcases eq_or_ne x.nextFile .indexFile with hf | hf
      · rw [if_pos hf]
        have hr : si.moveReadRecord .index x.nextPos x = (y, .index) :=
          moveReadRecord_index_of_readLink hread hf x
        rw [if_neg hpos, hr]
      · rw [if_neg hf]
        have hr : si.moveReadRecord .aux x.nextPos x = (y, .aux) :=
          moveReadRecord_aux_of_readLink hread hf x
        rw [hr]
  · have hv : m.values b = [] :=
      hm.values_eq_nil_of_around rfl hP hS (not_le.1 hxb).ne'
    have hloop := rangeSearchBody_path (m.values b) (e := e) hpath hsort
      (not_le.1 hxb).le (.cons hx hE2)
    rw [← hbetween, hv, List.nil_append] at hloop
    refine hloop.returns.congr fun n => ?_
    rw [rangeSearchFrom, if_neg hxb, hv]

/-- `range_search` answers with the values of the keys in the range, in the order of the keys. -/
theorem rangeSearch_returns (h : si.Linked c) (hm : si.Contents c m) (b e : κ) :
    Returns (si.rangeSearch · b e) (m.between b e) := by
  by_cases hbe : e < b
  · have : m.between b e = [] := by
      rw [Multimap.between, List.filter_eq_nil_iff.2, List.flatMap_nil]
      simp only [decide_eq_true_eq]
      exact fun x _ hx => absurd (hx.1.trans hx.2) hbe.not_ge
    rw [this]
    exact .of_eq fun n => by rw [rangeSearch, if_pos hbe]
  by_cases he : si.indexFile = []
  · have hc := h.empty he
    subst hc
    have : m.between b e = [] := by
      have hE : m.entries = [] := List.forall₂_nil_left_iff.1 hm
      rw [Multimap.between, hE]
      rfl
    rw [this]
    refine .of_eq fun n => ?_
    rw [rangeSearch, if_neg hbe, binarySearch_empty he]
    rfl
  · obtain ⟨bsr, hret, hf⟩ := binarySearch_found (h.searchable he) b
    obtain ⟨⟨found, x⟩, hres, rfl, P, S, hc, hP, hS⟩ := rangeSearchStart_returns h hm hf
    have hfrom := rangeSearchFrom_returns h hm (not_lt.1 hbe) hc hP hS
    refine (hret.bind (g := fun n bsr =>
      if bsr.location = .emptyFile then some []
      else (si.rangeSearchStart n b bsr).bind (si.rangeSearchFrom n bsr.file b e)) ?_).congr fun n => ?_
    · exact (hres.bind (g := fun n => si.rangeSearchFrom n .index b e) hfrom).congr fun n => by
        rw [if_neg hf.location_ne, hf.file_eq]
    · rw [rangeSearch, if_neg hbe]
      rfl

/-! ## Queries are exact -/

/-- The positions that a record of the chain stands for are the values of its key. -/
theorem Contents.values_eq_of_dupChain (hm : si.Contents c m) {r : SequentialIndexRecord κ}
    (hr : r ∈ c) {dups : List (SequentialIndexRecord κ)}
    (hd : DupChain duplicatesLayout si.duplicatesFile r.dupPos dups) :
    m.values r.data = r.rawPos :: dups.map (·.rawPos) := by
  obtain ⟨e, ⟨-, hfirst, dups', hd', hrest⟩, hv⟩ :=
    Multimap.Represented.values_of_mem key_of_recordHolds hm hr
  obtain ⟨rfl, -⟩ := Path.unique hd Layout.read_neg_one hd' Layout.read_neg_one
  rw [hv, Entry.values, ← hfirst, ← hrest]
  rfl

/-- On a linked index `search` comes back with the position of the key's record and those of
its chain of duplicates, or with nothing for a key that is not stored, and `range_search` comes
back with the answers of `search` for the stored keys in the range, one after the other in
ascending order of the keys. -/
theorem queries_exact_of_linked (h : si.Linked c) :
    (∀ r ∈ c, ∀ dups, DupChain duplicatesLayout si.duplicatesFile r.dupPos dups →
      Returns (si.search · r.data) (r.rawPos :: dups.map (·.rawPos))) ∧
    (∀ k, (∀ r ∈ c, r.data ≠ k) → Returns (si.search · k) []) ∧
    ∃ positions : κ → List Int, (∀ k, Returns (si.search · k) (positions k)) ∧
      ∀ b e, Returns (si.rangeSearch · b e)
        (((c.map (·.data)).filter fun k => b ≤ k ∧ k ≤ e).flatMap positions) := by
  obtain ⟨m, hm⟩ := exists_contents h.sorted h.duplicates
  refine ⟨fun r hr dups hd => ?_, fun k hk => ?_, m.values, search_returns h hm, fun b e => ?_⟩
  · rw [← hm.values_eq_of_dupChain hr hd]
    exact search_returns h hm r.data
  · rw [← hm.values_eq_nil hk]
    exact search_returns h hm k
  · rw [← hm.keys_eq key_of_recordHolds, ← Multimap.between_eq_flatMap_keys]
    exact rangeSearch_returns h hm b e

/-- Queries on a well-formed index are exact. -/
theorem queries_exact (h : si.WellFormed c) :
    (∀ r ∈ c, ∀ dups, DupChain duplicatesLayout si.duplicatesFile r.dupPos dups →
      Returns (si.search · r.data) (r.rawPos :: dups.map (·.rawPos))) ∧
    (∀ k, (∀ r ∈ c, r.data ≠ k) → Returns (si.search · k) []) ∧
    ∃ positions : κ → List Int, (∀ k, Returns (si.search · k) (positions k)) ∧
      ∀ b e, Returns (si.rangeSearch · b e)
        (((c.map (·.data)).filter fun k => b ≤ k ∧ k ≤ e).flatMap positions) :=
  queries_exact_of_linked h.linked

/-- Two records in the index file, one between them in the overflow file, and a duplicate of the
first. -/
def sampleIndex : SequentialIndex Int where
  pk := false
  header := ⟨24, .indexFile⟩
  indexFile := [⟨⟨10, 100, 0⟩, 24, .indexFile, 0, .auxFile⟩,
    ⟨⟨20, 200, -1⟩, 112, .indexFile, -1, .indexFile⟩]
  auxFile := [⟨⟨15, 150, -1⟩, 0, .auxFile, 112, .indexFile⟩]
  duplicatesFile := [⟨⟨10, 101, -1⟩, 0, .unset, 0, .unset⟩]

/-- It is well formed. -/
theorem sampleIndex_wellFormed : sampleIndex.WellFormed
    [⟨⟨10, 100, 0⟩, 24, .indexFile, 0, .auxFile⟩, ⟨⟨15, 150, -1⟩, 0, .auxFile, 112, .indexFile⟩,
      ⟨⟨20, 200, -1⟩, 112, .indexFile, -1, .indexFile⟩] where
  chain := .cons rfl (.cons rfl (.cons rfl .nil))
  sorted := by unfold SortedBy; decide
  own := own_of_files (by decide) (by decide)
  index := by decide
  aux := by decide
  auxEmpty := by decide
  duplicates := by
    intro r hr
    simp only [List.mem_cons, List.not_mem_nil, or_false] at hr
    rcases hr with rfl | rfl | rfl
    · exact ⟨[_], .cons rfl .nil⟩
    · exact ⟨[], .nil⟩
    · exact ⟨[], .nil⟩

/-- Only its first record has a duplicate. -/
theorem sampleIndex_disjoint : sampleIndex.DisjointDuplicates
    [⟨⟨10, 100, 0⟩, 24, .indexFile, 0, .auxFile⟩, ⟨⟨15, 150, -1⟩, 0, .auxFile, 112, .indexFile⟩,
      ⟨⟨20, 200, -1⟩, 112, .indexFile, -1, .indexFile⟩] := by
  have hone : DisjointChains duplicatesLayout sampleIndex.duplicatesFile ([0] ++ []) :=
    List.pairwise_singleton _ _
  exact DisjointChains.insert_end (s := [0]) (t := [-1]) hone.insert_end

/-- The queries on it. -/
theorem queries_exact_sample :
    Returns (sampleIndex.search · 10) [100, 101] ∧ Returns (sampleIndex.search · 12) [] ∧
      ∃ positions : Int → List Int, (∀ k, Returns (sampleIndex.search · k) (positions k)) ∧
        Returns (sampleIndex.rangeSearch · 12 30) (positions 15 ++ positions 20) := by
  obtain ⟨h1, h2, positions, h3, h4⟩ := queries_exact sampleIndex_wellFormed
  refine ⟨h1 _ (.head _) [_] (.cons rfl .nil), h2 12 (by decide), positions, h3, ?_⟩
  simpa using h4 12 30

end SequentialIndex

end Rdbms
