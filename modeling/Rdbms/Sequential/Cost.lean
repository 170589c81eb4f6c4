import Rdbms.Lib.Settled
import Rdbms.Sequential.Storage

/-!
# How long the queries take

A query runs up to four loops. The binary search halves what is left of the index file, whatever
stands in it (`binarySearch_ends`). The walk through an overflow chain and the one along a range
see each record once, and the loop over duplicates each position. As the overflow file stays short
(`short_of_run`), a bound on the rounds that is logarithmic in the number of keys and linear in the
number of answers is enough after every run (`cost_of_run`).
-/

namespace Rdbms

/-- Following a chain of duplicates takes a round for each position. -/
theorem getAllRaw_settled {ρ κ : Type} [IndexRecord ρ κ] {L : Layout} {d : List ρ} {sir : ρ}
    {first : Int} {rest : List Int} (h : HasPositions L d sir first rest) (records : List Int) :
    Settled (rest.length + 1) (getAllRawCurrentRecords L d · sir records) := by
  obtain ⟨-, chain, hchain, rfl⟩ := h
  refine Settled.loop_body (I := fun n (s : ρ × Bool × List Int) => ∃ chain,
    DupChain L d (IndexRecord.toRecord s.1).dupPos chain ∧ s.2.1 = true ∧ chain.length ≤ n) ?_
    ⟨chain, hchain, rfl, (List.length_map _).ge⟩ (Nat.lt_succ_self _)
  rintro n ⟨sir, good, records⟩ t ⟨chain, hchain, rfl, hn⟩ hbody
  cases chain with
  | nil =>
    have hend : (IndexRecord.toRecord sir).dupPos = -1 := Path.nil_iff.1 hchain
    rw [getAllRawBody, if_neg (not_not_intro hend)] at hbody
    cases hbody
  | cons r chain =>
    obtain ⟨hr, hchain⟩ := Path.cons_iff.1 hchain
    have hread : moveReadRecord L d true (IndexRecord.toRecord sir).dupPos sir = (r, true) :=
      moveReadRecord_of_read hr
    rw [getAllRawBody, if_pos (Layout.ne_neg_one_of_read hr), hread] at hbody
    cases hbody
    exact ⟨chain.length, hn, chain, hchain, rfl, le_rfl⟩

namespace SequentialIndex
variable {κ : Type} [KeyType κ] {si : SequentialIndex κ} {c : List (SequentialIndexRecord κ)}
  {m : Multimap κ Int} {k : κ} {n N : Nat}

/-! ## The binary search -/

/-- How many records the search has left. -/
def BinarySearchState.window (s : BinarySearchState κ) : Nat :=
  (s.logicalRight - s.logicalLeft + 1).toNat

/-- A round leaves at most half of them. -/
theorem window_of_round {s t : BinarySearchState κ}
    (h : si.binarySearchBody k s = some (.inl t)) : 0 < s.window ∧ t.window ≤ s.window / 2 := by
  by_cases hle : s.logicalLeft ≤ s.logicalRight
  · obtain ⟨res, hres, hround⟩ := binarySearchBody_round si k hle
    have heq : res = .inl t := Option.some.inj (hres.symm.trans h)
    obtain ⟨hleft, hright⟩ :=
      si.binarySearchRead_bounds ((s.logicalLeft + s.logicalRight) / 2) s
    simp only [BinarySearchState.window]
    subst heq
    cases hround with
    | right _ _ =>
      simp only [hright]
      omega
    | left _ =>
      simp only [hleft]
      omega
  · simp only [binarySearchBody, if_neg hle] at h
    cases h

/-- A bound that is enough for the binary search. -/
theorem binarySearch_settled (k : κ) (hlen : si.indexFile.length < 2 ^ n) :
    Settled (n + 2) (si.binarySearch · k) := by
  refine Settled.ite (fun _ => .of_eq fun _ => rfl) fun _ => ?_
  refine Settled.loop_body (d := n + 1)
    (I := fun d (s : BinarySearchState κ) => s.window < 2 ^ d) ?_ ?_ (Nat.lt_succ_self _)
  · intro d s t hs hbody
    obtain ⟨hpos, hhalf⟩ := window_of_round hbody
    cases d with
    | zero => omega
    | succ d =>
      rw [pow_succ] at hs
      exact ⟨d, Nat.lt_succ_self d, by omega⟩
  · simp only [BinarySearchState.window]
    rw [pow_succ]
    omega

/-- A round leaves the loop or goes on with fewer records. -/
theorem binarySearchBody_ends (si : SequentialIndex κ) (k : κ) (s : BinarySearchState κ) :
    (∃ bsr, Returns (fun _ => si.binarySearchBody k s) (.inr bsr) ∧ True) ∨
      ∃ t, Returns (fun _ => si.binarySearchBody k s) (.inl t) ∧ True ∧ t.window < s.window := by
  cases hbody : si.binarySearchBody k s with
  | none =>
    by_cases hle : s.logicalLeft ≤ s.logicalRight
    · obtain ⟨res, hres, -⟩ := binarySearchBody_round si k hle
      cases hbody.symm.trans hres
    · simp only [binarySearchBody, if_neg hle] at hbody
      cases hbody
  | some res =>
    cases res with
    | inl t =>
      obtain ⟨hpos, hhalf⟩ := window_of_round hbody
      exact .inr ⟨t, .of_eq fun _ => rfl, trivial, by omega⟩
    | inr bsr => exact .inl ⟨bsr, .of_eq fun _ => rfl, trivial⟩

/-- On every index, whatever its files hold, the binary search comes back after a number of rounds
logarithmic in the length of the index file. -/
theorem binarySearch_ends (si : SequentialIndex κ) (k : κ) (hlen : si.indexFile.length < 2 ^ n) :
    ∃ bsr, ∀ fuel, n + 2 ≤ fuel → si.binarySearch fuel k = some bsr := by
  have hsettled := binarySearch_settled k hlen
  by_cases he : si.indexFile = []
  · exact ⟨_, hsettled.eq_of_returns (.of_eq (binarySearch_empty he))⟩
  · obtain ⟨bsr, hret, -⟩ := LoopReturns.of_measure (I := fun _ => True) BinarySearchState.window
      (fun s _ => binarySearchBody_ends si k s)
      { logicalLeft := 0, logicalRight := si.indexFile.length } trivial
    refine ⟨bsr, hsettled.eq_of_returns (hret.returns.congr fun n => ?_)⟩
    rw [binarySearch, if_neg he]

/-- Records that are out of order and have lost their positions. -/
theorem binarySearch_ends_sample : ∃ si : SequentialIndex Int, si.indexFile.map (·.data) = [9, 3, 5] ∧
    ∃ bsr, ∀ fuel, 4 ≤ fuel → si.binarySearch fuel 4 = some bsr := by
  let r (k : Int) : SequentialIndexRecord Int := ⟨⟨k, 0, -1⟩, 0, .unset, 0, .unset⟩
  let si : SequentialIndex Int := ⟨false, {}, [r 9, r 3, r 5], [], []⟩
  exact ⟨si, rfl, binarySearch_ends (n := 2) si 4 (by decide)⟩

/-! ## The overflow chain -/

/-- The positions of a record of the chain. -/
theorem Contents.getAllRaw_settled (hm : si.Contents c m) {r : SequentialIndexRecord κ}
    (hr : r ∈ c) (records : List Int) :
    Settled (m.values r.data).length (si.getAllRawCurrentRecords · r records) := by
  obtain ⟨e, he, hvalues⟩ := Multimap.Represented.values_of_mem key_of_recordHolds hm hr
  rw [hvalues]
  exact Rdbms.getAllRaw_settled he.2 records

/-- The walk goes on to the next record of the overflow file. -/
theorem searchAuxBody_inl {x : SequentialIndexRecord κ} {file : Stream} {records : List Int}
    {t : SequentialIndexRecord κ × Stream}
    (h : si.searchAuxBody N k records (x, file) = some (.inl t)) :
    x.nextFile ≠ .indexFile ∧ t = si.moveReadRecord file x.nextPos x := by
  rw [searchAuxBody] at h
  by_cases hle : x.data ≤ k
  · rw [if_pos hle] at h
    by_cases hk : x.data = k
    · rw [if_pos hk] at h
      obtain ⟨_, -, heq⟩ := Option.map_eq_some_iff.1 h
      cases heq
    · rw [if_neg hk] at h
      by_cases hstop : x.nextFile = .indexFile ∨ x.nextPos = endOfFile
      · rw [if_pos hstop] at h
        cases h
      · rw [if_neg hstop] at h
        cases h
        exact ⟨fun hfile => hstop (.inl hfile), rfl⟩
  · rw [if_neg hle] at h
    cases h

/-- The walk through a run of overflow records sees each at most once. -/
theorem AuxRun.walk_settled (hown : ∀ l r, si.readLink l = some r → r.loc = l)
    {a : SequentialIndexRecord κ} {A : List (SequentialIndexRecord κ)} {l' : Int × FilePos}
    (hrun : si.AuxRun a.link A l') (records : List Int)
    (hget : ∀ x ∈ a :: A, x.data = k → Settled N (si.getAllRawCurrentRecords · x records))
    (hA : A.length < N) :
    Settled N fun n => loop (si.searchAuxBody n k records) n (a, .aux) := by
  refine Settled.loop (N := N) (d := A.length)
    (I := fun d (s : SequentialIndexRecord κ × Stream) => s.2 = .aux ∧ ∃ A l',
      si.AuxRun s.1.link A l' ∧ A.length ≤ d ∧
      ∀ y ∈ s.1 :: A, y.data = k → Settled N (si.getAllRawCurrentRecords · y records))
    ?_ ?_ ⟨rfl, A, l', hrun, le_rfl, hget⟩ hA le_rfl
  · rintro d ⟨x, _⟩ ⟨rfl, A, l', -, -, hget⟩
    refine Settled.ite (fun _ => ?_) fun _ => .of_eq fun _ => rfl
    refine Settled.ite (fun hx => ?_) fun _ => .of_eq fun _ => rfl
    exact (hget x (.head _) hx).map _
  · rintro d ⟨x, _⟩ t ⟨rfl, A, l', hrun, hd, hget⟩ hbody
    obtain ⟨hfile, rfl⟩ := searchAuxBody_inl hbody
    cases A with
    | nil => exact absurd ((hrun.file_eq_iff hown).2 rfl) hfile
    | cons b A =>
      obtain ⟨hb, -, hrun⟩ := AuxRun.cons_iff.1 hrun
      have hread : si.moveReadRecord .aux x.nextPos x = (b, .aux) :=
        moveReadRecord_aux_of_readLink hb hfile x
      rw [hread]
      exact ⟨A.length, hd, rfl, A, l', hrun, le_rfl, fun y hy => hget y (.tail _ hy)⟩

section
variable {P A S : List (SequentialIndexRecord κ)} {l l' : Int × FilePos}
  {bsr : BinarySearchResponse κ}

/-- The run of a gap is not longer than the overflow file. -/
theorem Gap.length_run_le (h : si.WellFormed c) (hg : si.Gap c k P l A l' S) :
    A.length ≤ si.auxFile.length := by
  have hrun : A.filter (·.currentFile = .auxFile) = A :=
    List.filter_eq_self.2 fun a ha => decide_eq_true (hg.run.aux a ha)
  rw [← h.aux.length_eq, hg.eq, List.filter_append, List.filter_append, hrun, List.length_append,
    List.length_append]
  omega

/-- The walk through a gap has settled when there is fuel for its records and for the values of the
key. -/
theorem Gap.walk_settled (h : si.WellFormed c) (hm : si.Contents c m)
    (hg : si.Gap c k P l A l' S) (hA : A ≠ []) (sir : SequentialIndexRecord κ)
    (haux : si.auxFile.length ≤ N) (hvalues : (m.values k).length ≤ N) :
    Settled N (searchAuxFile.walk si · k [] l.1 sir) := by
  have hlen := hg.length_run_le h
  obtain ⟨a, A, rfl⟩ := List.exists_cons_of_ne_nil hA
  obtain ⟨ha, -, hrun⟩ := AuxRun.cons_iff.1 hg.run
  have hfile : l.2 ≠ .indexFile := fun hc => hA ((hg.run.file_eq_iff h.own).1 hc)
  rw [List.length_cons] at hlen
  refine (AuxRun.walk_settled (k := k) (N := N) h.own hrun [] ?_ (by omega)).congr fun n => ?_
  · rintro x hx rfl
    refine (hm.getAllRaw_settled ?_ []).mono hvalues
    rw [hg.eq]
    exact List.mem_append_right _ (List.mem_append_left _ hx)
  · rw [searchAuxFile.walk, moveReadRecord_aux_of_readLink ha hfile]

/-- The same from what `binary_search` reports. -/
theorem searchAuxFile_settled (h : si.WellFormed c) (hm : si.Contents c m) (hf : Found si k bsr)
    (hne : bsr.location ≠ .recCur) (haux : si.auxFile.length ≤ N)
    (hvalues : (m.values k).length ≤ N) : Settled N (si.searchAuxFile · k bsr []) := by
  cases h.linked.gapAt hf hne with
  | header A S l' location header sih gap next =>
    by_cases hA : A = []
    · have hfile : si.header.nextFile = .indexFile := (gap.run.file_eq_iff h.own).2 hA
      refine .of_eq (b := some ([], bsr.sir)) fun n => ?_
      unfold searchAuxFile
      rw [if_pos header, sih, if_pos hfile]
    · have hfile : si.header.nextFile ≠ .indexFile := fun hc =>
        hA ((gap.run.file_eq_iff h.own).1 hc)
      refine (gap.walk_settled h hm hA bsr.sir haux hvalues).congr fun n => ?_
      unfold searchAuxFile
      rw [if_pos header, sih, if_neg hfile]
      rfl
  | record P A S l' location header mem gap =>
    by_cases hA : A = []
    · have hfile : (gapRecord bsr).nextFile = .indexFile := (gap.run.file_eq_iff h.own).2 hA
      refine .of_eq (b := some ([], gapRecord bsr)) fun n => ?_
      rw [searchAuxFile_of_not_header header, if_pos hfile]
    · have hfile : (gapRecord bsr).nextFile ≠ .indexFile := fun hc =>
        hA ((gap.run.file_eq_iff h.own).1 hc)
      refine (gap.walk_settled h hm hA (gapRecord bsr) haux hvalues).congr fun n => ?_
      rw [searchAuxFile_of_not_header header, if_neg hfile]
      rfl

/-- Both queries start in the same way. -/
theorem rangeSearchStart_settled (h : si.WellFormed c) (hm : si.Contents c m)
    (hf : Found si k bsr) (haux : si.auxFile.length ≤ N) (hvalues : (m.values k).length ≤ N) :
    Settled N (si.rangeSearchStart · k bsr) := by
  refine Settled.ite (fun hcur => ?_) fun hcur => searchAuxFile_settled h hm hf hcur haux hvalues
  refine Settled.map _ ?_
  cases hf with
  | first _ location => rw [location] at hcur; cases hcur
  | prev _ _ location => rw [location] at hcur; cases hcur
  | next _ _ location => rw [location] at hcur; cases hcur
  | cur i hi location header sir data =>
    have hmem := (h.linked.mem_index_iff.1 (List.getElem_mem hi)).1
    rw [← sir] at hmem data
    subst data
    exact (hm.getAllRaw_settled hmem []).mono hvalues

end

/-- A bound that is enough for `search`. -/
theorem search_settled (h : si.WellFormed c) (hm : si.Contents c m)
    (hlen : si.indexFile.length < 2 ^ n) (haux : si.auxFile.length ≤ n)
    (hvalues : (m.values k).length ≤ n) : Settled (n + 2) (si.search · k) := by
  by_cases he : si.indexFile = []
  · exact .of_eq (b := some []) fun n => by
      rw [search, binarySearch_empty he]
      rfl
  · obtain ⟨bsr, hret, hf⟩ := binarySearch_found (h.linked.searchable he) k
    have hstart := (rangeSearchStart_settled h hm hf haux hvalues).mono (Nat.le_add_right n 2)
    refine (binarySearch_settled k hlen).bind hret ?_
    refine (hstart.map (·.1)).congr fun n => ?_
    have hne := hf.location_ne
    rw [rangeSearchStart]
    cases hloc : bsr.location with
    | emptyFile => exact absurd hloc hne
    | recCur =>
      rw [if_pos rfl, Option.map_map]
      exact Option.map_id'.symm
    | recPrev => rfl
    | recNext => rfl

/-! ## The walk along a range -/

variable {b e : κ}

/-- The walk goes on to the next record of the chain. -/
theorem rangeSearchBody_inl {x : SequentialIndexRecord κ} {files : Streams} {records : List Int}
    {t : (SequentialIndexRecord κ × Streams) × List Int}
    (h : si.rangeSearchBody N e ((x, files), records) = some (.inl t)) :
    x.data ≤ e ∧ x.nextPos ≠ endOfFile ∧ t.1 = si.moveReadNext files x.nextPos x.nextFile x := by
  rw [rangeSearchBody] at h
  by_cases hle : x.data ≤ e
  · rw [if_pos hle] at h
    obtain ⟨found, -, heq⟩ := Option.map_eq_some_iff.1 h
    by_cases hend : x.nextPos = endOfFile
    · rw [if_pos hend] at heq
      cases heq
    · rw [if_neg hend] at heq
      cases heq
      exact ⟨hle, hend, rfl⟩
  · rw [if_neg hle] at h
    cases h

/-- The walk along the chain sees each record in the range once. -/
theorem rangeWalk_settled {x : SequentialIndexRecord κ} {S : List (SequentialIndexRecord κ)}
    (hpath : Path si.readLink (·.link) x.link S endLink)
    (hget : ∀ y ∈ x :: S, y.data ≤ e → ∀ records,
      Settled N (si.getAllRawCurrentRecords · y records))
    (hS : (x :: S).countP (·.data ≤ e) < N) (records : List Int) :
    Settled N fun n => loop (si.rangeSearchBody n e) n ((x, {}), records) := by
  refine Settled.loop (N := N) (d := (x :: S).countP (·.data ≤ e))
    (I := fun d (s : (SequentialIndexRecord κ × Streams) × List Int) => s.1.2 = {} ∧ ∃ S,
      Path si.readLink (·.link) s.1.1.link S endLink ∧ (s.1.1 :: S).countP (·.data ≤ e) ≤ d ∧
      ∀ y ∈ s.1.1 :: S, y.data ≤ e → ∀ records, Settled N (si.getAllRawCurrentRecords · y records))
    ?_ ?_ ⟨rfl, S, hpath, le_rfl, hget⟩ hS le_rfl
  · rintro d ⟨⟨x, _⟩, records⟩ ⟨rfl, S, -, -, hget⟩
    exact Settled.ite (fun hx => (hget x (.head _) hx records).map _) fun _ => .of_eq fun _ => rfl
  · rintro d ⟨⟨x, _⟩, records⟩ ⟨next, found⟩ ⟨rfl, S, hpath, hd, hget⟩ hbody
    obtain ⟨hle, hend, hy⟩ := rangeSearchBody_inl hbody
    cases S with
    | nil => exact absurd (Prod.ext_iff.1 (Path.nil_iff.1 hpath)).1 hend
    | cons z S =>
      obtain ⟨hz, hpath⟩ := Path.cons_iff.1 hpath
      have hread : si.moveReadNext {} x.nextPos x.nextFile x = (z, {}) :=
        moveReadNext_of_readLink hz x
      obtain rfl : next = (z, {}) := hy.trans hread
      have hcount : (z :: S).countP (·.data ≤ e) < d := by
        rwa [List.countP_cons_of_pos (p := (·.data ≤ e)) (a := x) (decide_eq_true hle)] at hd
      exact ⟨_, hcount, rfl, S, hpath, le_rfl, fun w hw => hget w (.tail _ hw)⟩

/-- There are no more records in the range than answers. -/
theorem Contents.countP_le (hm : si.Contents c m) {S : List (SequentialIndexRecord κ)}
    (hS : S.Sublist c) (hb : ∀ y ∈ S, b ≤ y.data) :
    S.countP (·.data ≤ e) ≤ (m.between b e).length := by
  calc S.countP (·.data ≤ e)
      = S.countP (fun y => b ≤ y.data ∧ y.data ≤ e) :=
        List.countP_congr fun y hy => by simp [hb y hy]
    _ ≤ c.countP (fun y => b ≤ y.data ∧ y.data ≤ e) := hS.countP_le
    _ = (m.keys.filter fun k => b ≤ k ∧ k ≤ e).length := by
        rw [hm.keys_eq key_of_recordHolds, ← List.countP_eq_length_filter, List.countP_map]
        rfl
    _ ≤ (m.between b e).length := m.length_keys_le_between b e

/-- The rest of a range search, from the record where the search for the lower bound has stopped. -/
theorem rangeSearchFrom_settled (h : si.WellFormed c) (hm : si.Contents c m)
    {P S : List (SequentialIndexRecord κ)} {x : SequentialIndexRecord κ} (hc : c = P ++ x :: S)
    (hS : ∀ y ∈ S, b < y.data) (hbetween : (m.between b e).length < N) (found : List Int) :
    Settled N (si.rangeSearchFrom · .index b e (found, x)) := by
  subst hc
  obtain ⟨j, -, hpath⟩ := Path.of_append h.chain
  obtain ⟨-, hpath⟩ := Path.cons_iff.1 hpath
  -- the records of a part of the chain that is not below the range
  have hget : ∀ y ∈ P ++ x :: S, b ≤ y.data → y.data ≤ e → ∀ records,
      Settled N (si.getAllRawCurrentRecords · y records) := fun y hy hb he records =>
    (hm.getAllRaw_settled hy records).mono ((m.length_values_le_between hb he).trans hbetween.le)
  have htail : S.Sublist (P ++ x :: S) :=
    (List.sublist_cons_self x S).trans (List.sublist_append_right P _)
  by_cases hxb : x.data ≤ b
  · simp only [rangeSearchFrom, if_pos hxb]
    cases S with
    | nil =>
      have hend : x.nextPos = endOfFile ∧ x.nextFile = .indexFile :=
        Prod.ext_iff.1 (Path.nil_iff.1 hpath)
      exact .of_eq (b := some found) fun n => by rw [if_pos hend.2, if_pos hend.1]
    | cons y S =>
      obtain ⟨hread, hpath⟩ := Path.cons_iff.1 hpath
      have hpos : x.nextPos ≠ endOfFile := ne_endOfFile_of_readLink hread
      have hwalk := rangeWalk_settled hpath
        (fun z hz => hget z (htail.subset hz) (hS z hz).le)
        ((hm.countP_le htail fun z hz => (hS z hz).le).trans_lt hbetween) found
      refine hwalk.congr fun n => ?_
      have hnext := moveReadRecord_of_readLink hread x
      rcases eq_or_ne x.nextFile .indexFile with hfile | hfile
      · rw [if_pos hfile, if_neg hpos]
        rw [show x.link.2.stream = .index from if_pos hfile] at hnext
        rw [show si.moveReadRecord .index x.nextPos x = (y, .index) from hnext]
      · rw [if_neg hfile]
        rw [show x.link.2.stream = .aux from if_neg hfile] at hnext
        rw [show si.moveReadRecord .aux x.nextPos x = (y, .aux) from hnext]
  · have hall : ∀ y ∈ x :: S, b ≤ y.data := fun y hy =>
      (List.mem_cons.1 hy).elim (fun heq => heq ▸ (not_le.1 hxb).le) fun hy => (hS y hy).le
    have hwalk := rangeWalk_settled hpath
      (fun z hz => hget z (List.mem_append_right P hz) (hall z hz))
      ((hm.countP_le (List.sublist_append_right P _) hall).trans_lt hbetween) found
    refine hwalk.congr fun n => ?_
    rw [rangeSearchFrom, if_neg hxb]

/-- A bound that is enough for `range_search`. -/
theorem rangeSearch_settled (h : si.WellFormed c) (hm : si.Contents c m)
    (hlen : si.indexFile.length < 2 ^ n) (haux : si.auxFile.length ≤ n)
    (hbetween : (m.between b e).length ≤ n) : Settled (n + 2) (si.rangeSearch · b e) := by
  refine Settled.ite (fun _ => .of_eq fun _ => rfl) fun hbe => ?_
  by_cases he : si.indexFile = []
  · exact .of_eq (b := some []) fun n => by
      rw [binarySearch_empty he]
      rfl
  · obtain ⟨bsr, hret, hf⟩ := binarySearch_found (h.linked.searchable he) b
    have hvalues := (m.length_values_le_between le_rfl (not_lt.1 hbe)).trans hbetween
    obtain ⟨⟨found, x⟩, hres, rfl, P, S, hc, -, hS⟩ := rangeSearchStart_returns h.linked hm hf
    have hstart := (rangeSearchStart_settled h hm hf haux hvalues).mono (Nat.le_add_right n 2)
    have hfrom := rangeSearchFrom_settled h hm hc hS
      (show (m.between b e).length < n + 2 by omega) (m.values b)
    refine (binarySearch_settled b hlen).bind hret ?_
    refine (hstart.bind hres hfrom).congr fun n => ?_
    rw [if_neg hf.location_ne, hf.file_eq]
    rfl

/-! ## Runs -/

/-- Every call has a reply. -/
theorem CallRun.length_eq {sort : List (κ × Int) → List (κ × Int)} {pk : Bool}
    {calls : List (SequentialCall κ)} {replies : List SequentialReply}
    (h : CallRun sort pk calls replies si) : calls.length = replies.length := by
  induction h with
  | start => rfl
  | call _ _ _ ih => rw [List.length_append, List.length_append, ih]; rfl

/-- A key whose place is not in the overflow chain of the header is not looked for there. -/
theorem WellFormed.not_readsAcross (h : si.WellFormed c) (hk : ¬ si.InHeaderChain k) :
    ∀ᶠ fuel in Filter.atTop, ¬ si.ReadsAcross fuel k := by
  by_cases hempty : si.indexFile = []
  · refine .of_forall fun fuel ⟨bsr, hbsr, hheader, _⟩ => ?_
    rw [binarySearch_empty hempty] at hbsr
    cases hbsr
    cases hheader
  have hsearch := h.linked.searchable hempty
  obtain ⟨found, hret, hfound⟩ := binarySearch_found hsearch k
  filter_upwards [hret] with fuel hfuel ⟨bsr, hbsr, hheader, hnot⟩
  cases hfuel.symm.trans hbsr
  cases hfound with
  | first hi location header sih sir lt =>
    refine hk ⟨fun hfile => hnot (.inl ⟨header, sih ▸ hfile⟩), fun r hr => ?_⟩
    obtain ⟨i, hi', rfl⟩ := List.getElem_of_mem hr
    exact lt.trans_le (hsearch.sorted.getElem_le (Nat.zero_le i) hi')
  | cur i hi location header => cases hheader.symm.trans header
  | prev i hi location header => cases hheader.symm.trans header
  | next i hi location header => cases hheader.symm.trans header

/-- An allowed call comes back with a bound at which it reads whole records only. -/
theorem WellFormed.exists_readsRecords {sort : List (κ × Int) → List (κ × Int)}
    {call : SequentialCall κ} {out : SequentialReply × SequentialIndex κ} (h : si.WellFormed c)
    (hok : si.Allowed call) (hret : Returns (si.call sort · call) out) :
    ∃ fuel, si.ReadsRecords fuel call ∧ si.call sort fuel call = some out := by
  cases call with
  | remove data => exact ((h.not_readsAcross hok).and hret).exists
  | _ => exact hret.exists.imp fun _ hcall => ⟨trivial, hcall⟩

/-- A run of calls with their replies, as a run of public calls. -/
theorem CallRun.publicRun {sort : List (κ × Int) → List (κ × Int)} {pk : Bool}
    (hsort : SortsByKey sort) {calls : List (SequentialCall κ)} {replies : List SequentialReply}
    (h : CallRun sort pk calls replies si) (hchecks : ∀ p ∈ calls.zip replies, Checks p.1 p.2) :
    PublicRun sort pk si := by
  induction h with
  | start => exact .start
  | @call calls replies si si' c reply hrun hok hret ih =>
    rw [List.zip_append hrun.length_eq] at hchecks
    obtain ⟨-, -, chain, hwf, -⟩ := hrun.holds hsort
    obtain ⟨fuel, hrecords, hcall⟩ := hwf.exists_readsRecords hok hret
    refine .call (ih fun p hp => hchecks p (List.mem_append_left _ hp)) hrecords ?_ hcall
    exact hchecks (c, reply) (List.mem_append_right _ (.head _))

/-- After every run of public calls whose insertions look at the lengths of the files, with fewer than
`2 ^ n` keys: each loop of `search` is over after `n + 2` rounds if the key has at most `n`
positions, and each loop of `range_search` if there are at most `n` in the range. -/
theorem cost_of_run {sort : List (κ × Int) → List (κ × Int)} {pk : Bool} (hsort : SortsByKey sort)
    {calls : List (SequentialCall κ)} {replies : List SequentialReply}
    (h : CallRun sort pk calls replies si) (hchecks : ∀ p ∈ calls.zip replies, Checks p.1 p.2)
    (hkeys : (answers sort pk calls).2.keys.length < 2 ^ n) :
    (∀ k, ((answers sort pk calls).2.values k).length ≤ n → ∀ fuel, n + 2 ≤ fuel →
      si.search fuel k = some ((answers sort pk calls).2.values k)) ∧
    ∀ b e, ((answers sort pk calls).2.between b e).length ≤ n → ∀ fuel, n + 2 ≤ fuel →
      si.rangeSearch fuel b e = some ((answers sort pk calls).2.between b e) := by
  obtain ⟨-, -, chain, hwf, hm⟩ := h.holds hsort
  have hindex : si.indexFile.length ≤ (answers sort pk calls).2.keys.length := by
    rw [hm.keys_eq key_of_recordHolds, List.length_map, ← hwf.index]
    exact List.length_filter_le _ _
  have hlen : si.indexFile.length < 2 ^ n := hindex.trans_lt hkeys
  have haux : si.auxFile.length ≤ n := by
    rcases short_of_run (h.publicRun hsort hchecks) with hnil | hle
    · rw [hnil]
      exact Nat.zero_le n
    · exact ((Nat.pow_lt_pow_iff_right Nat.one_lt_two).1 (hle.trans_lt hlen)).le
  refine ⟨fun k hvalues => ?_, fun b e hbetween => ?_⟩
  · exact (search_settled hwf hm hlen haux hvalues).eq_of_returns (search_returns hwf.linked hm k)
  · exact (rangeSearch_settled hwf hm hlen haux hbetween).eq_of_returns
      (rangeSearch_returns hwf.linked hm b e)

/-- Two keys. -/
theorem cost_of_run_sample : ∃ si : SequentialIndex Int,
    CallRun (·.mergeSort fun a b => a.1 ≤ b.1) true [.add 5 1, .add 7 2]
      [.ok ([1, 1], []), .ok ([2], [])] si ∧
    (∀ fuel, 4 ≤ fuel → si.search fuel 7 = some [2]) ∧
    ∀ fuel, 4 ≤ fuel → si.rangeSearch fuel 0 9 = some [1, 2] := by
  have r1 : CallRun (·.mergeSort fun a b => a.1 ≤ b.1) true [.add 5 1] [.ok ([1, 1], [])] oneKey :=
    .call .start (fun h => by cases h.1) (.of_add 5 fun _ => rfl)
  obtain ⟨si, hadd⟩ : ∃ si : SequentialIndex Int,
      Returns (oneKey.call (·.mergeSort fun a b => a.1 ≤ b.1) · (.add 7 2)) (.ok ([2], []), si) :=
    ⟨_, .of_add 5 fun _ => rfl⟩
  have r2 := r1.call (c := .add 7 2) (fun h => by cases h.1) hadd
  have hchecks : ∀ p ∈ ([.add 5 1, .add 7 2] : List (SequentialCall Int)).zip
      [.ok ([1, 1], []), .ok ([2], [])], Checks p.1 p.2 := by
    intro p hp
    rcases List.mem_pair.1 hp with rfl | rfl
    · exact trivial
    · exact trivial
  obtain ⟨hsearch, hrange⟩ := cost_of_run (n := 2) sortsByKey_mergeSort r2 hchecks (by decide)
  exact ⟨si, r2, hsearch 7 (by decide), hrange 0 9 (by decide)⟩

end SequentialIndex

end Rdbms
