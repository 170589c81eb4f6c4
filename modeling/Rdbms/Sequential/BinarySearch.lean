import Mathlib.Tactic.SplitIfs
import Mathlib.Tactic.ByCases
import Rdbms.Lib.Sorted
import Rdbms.Sequential.Model

/-!
# Binary search on the index file

`binarySearch_found`: on an index file with strictly increasing keys, in which every record stores
its own position, the search comes back and reports the record of the key or the two neighbours
around it (`Found`). The right bound starts one past the last record, so the loop invariant says
where the key is and not only that the bounds are in range: the key is not below the record at the
left bound and not above the record at the right bound, as long as these are not the initial ones.
-/

namespace Rdbms

namespace SequentialIndex
variable {κ : Type} [KeyType κ] {si : SequentialIndex κ} {k : κ}

/-- Every record of the index file stores its own position. -/
def OwnIndex (si : SequentialIndex κ) : Prop :=
  ∀ i (h : i < si.indexFile.length), si.indexFile[i].currentPos = indexLayout.pos i

/-- The index file as the binary search needs it: at least one record, strictly increasing keys,
and every record stores its own position. -/
structure Searchable (si : SequentialIndex κ) : Prop where
  nonempty : si.indexFile ≠ []
  sorted : SortedBy (·.data) si.indexFile
  own : ∀ i (h : i < si.indexFile.length), si.indexFile[i].currentPos = indexLayout.pos i

/-- What the binary search for `k` reports. Its stream is still good. -/
inductive Found (si : SequentialIndex κ) (k : κ) (bsr : BinarySearchResponse κ) : Prop
  /-- The record of the key, with its physical predecessor if there is one. -/
  | cur (i : Nat) (hi : i < si.indexFile.length) (location : bsr.location = .recCur)
      (header : bsr.header = false) (sir : bsr.sir = si.indexFile[i])
      (data : si.indexFile[i].data = k)
      (sirPrev : ∀ j (hj : i = j + 1), bsr.sirPrev = si.indexFile[j]) (file : bsr.file = .index)
  /-- The key is below the first record. -/
  | first (hi : 0 < si.indexFile.length) (location : bsr.location = .recPrev)
      (header : bsr.header = true) (sih : bsr.sih = si.header) (sir : bsr.sir = si.indexFile[0])
      (lt : k < si.indexFile[0].data) (file : bsr.file = .index)
  /-- The key is between two neighbours and the search stopped at the second. -/
  | prev (i : Nat) (hi : i + 1 < si.indexFile.length) (location : bsr.location = .recPrev)
      (header : bsr.header = false) (sirPrev : bsr.sirPrev = si.indexFile[i])
      (sir : bsr.sir = si.indexFile[i + 1]) (gt : si.indexFile[i].data < k)
      (lt : k < si.indexFile[i + 1].data) (file : bsr.file = .index)
  /-- The key is above a record and below the next one, if there is a next one. -/
  | next (i : Nat) (hi : i < si.indexFile.length) (location : bsr.location = .recNext)
      (header : bsr.header = false) (sir : bsr.sir = si.indexFile[i])
      (gt : si.indexFile[i].data < k)
      (lt : ∀ h : i + 1 < si.indexFile.length, k < si.indexFile[i + 1].data ∧
        bsr.sirNext = si.indexFile[i + 1]) (file : bsr.file = .index)

/-- The offset of a record of the index file. -/
theorem indexLayout_pos (i : Nat) : indexLayout.pos i = 24 + 88 * i := rfl

omit [KeyType κ] in
/-- A good stream reads the records of the index file. -/
theorem moveReadRecord_index {i : Nat} (hi : i < si.indexFile.length) {p : Int}
    (hp : p = indexLayout.pos i) (r : SequentialIndexRecord κ) :
    si.moveReadRecord .index p r = (si.indexFile[i], .index) := by
  subst hp
  have hread : Rdbms.moveReadRecord indexLayout si.indexFile true (indexLayout.pos i) r =
      (si.indexFile[i], true) := moveReadRecord_of_read (by simp [hi])
  simp only [moveReadRecord, hread]

/-- The read in front of the middle record. -/
theorem binarySearchReadPrev_spec (hown : si.OwnIndex) {m : Nat} (hm : m < si.indexFile.length)
    {s : BinarySearchState κ} (hs : s.file = .index) (hcur : s.sirCur = si.indexFile[m]) :
    ∃ sih sirPrev, si.binarySearchReadPrev (indexLayout.pos m) s =
        ({ s with sih, sirPrev }, indexLayout.pos m) ∧
      (m = 0 → sih = si.header) ∧ ∀ j (hj : m = j + 1), sirPrev = si.indexFile[j] := by
  have hown : s.sirCur.currentPos = indexLayout.pos m := by rw [hcur, hown m hm]
  cases m with
  | zero =>
    have hfirst : ¬ s.sirCur.currentPos ≠ sequentialHeaderSize := not_not_intro hown
    refine ⟨si.header, s.sirPrev, ?_, fun _ => rfl, fun j hj => by omega⟩
    rw [binarySearchReadPrev, if_neg hfirst, hs, readHeader, if_pos rfl]
    rfl
  | succ j =>
    have hfirst : s.sirCur.currentPos ≠ sequentialHeaderSize := by
      rw [hown, indexLayout_pos, sequentialHeaderSize]
      omega
    have hread : si.moveReadRecord s.file (indexLayout.pos (j + 1) - sequentialIndexSize) s.sirPrev
        = (si.indexFile[j], s.file) := by
      rw [hs]
      exact moveReadRecord_index (by omega)
        (by simp only [indexLayout_pos, sequentialIndexSize]; omega) _
    refine ⟨s.sih, si.indexFile[j], ?_, fun h0 => by omega, fun i hi => ?_⟩
    · rw [binarySearchReadPrev, if_pos hfirst, hread]
    · obtain rfl : j = i := by omega
      rfl

/-- The read behind the middle record. -/
theorem binarySearchReadNext_spec (hown : si.OwnIndex) {m : Nat} (hm : m < si.indexFile.length)
    {s : BinarySearchState κ} (hs : s.file = .index) (hcur : s.sirCur = si.indexFile[m]) :
    ∃ sirNext, si.binarySearchReadNext (indexLayout.pos m) s = { s with sirNext } ∧
      ∀ hj : m + 1 < si.indexFile.length, sirNext = si.indexFile[m + 1] := by
  have hown : s.sirCur.currentPos + sequentialIndexSize = indexLayout.pos (m + 1) := by
    rw [hcur, hown m hm]
    exact Layout.pos_succ.symm
  have hlast : indexLayout.endPos si.indexFile = indexLayout.pos si.indexFile.length := rfl
  by_cases hend : m + 1 < si.indexFile.length
  · have hread : si.moveReadRecord s.file (indexLayout.pos m + sequentialIndexSize) s.sirNext =
        (si.indexFile[m + 1], s.file) := by
      rw [hs]
      exact moveReadRecord_index hend Layout.pos_succ.symm _
    have hne : indexLayout.pos (m + 1) ≠ indexLayout.pos si.indexFile.length :=
      fun hc => hend.ne (Layout.pos_inj hc)
    refine ⟨si.indexFile[m + 1], ?_, fun _ => rfl⟩
    simp only [binarySearchReadNext, hown, hlast, if_pos hne, hread]
  · have heq : m + 1 = si.indexFile.length := by omega
    refine ⟨s.sirNext, ?_, fun hj => absurd hj hend⟩
    simp only [binarySearchReadNext, hown, hlast, heq, ne_eq, not_true, if_false]

/-- What one round has read, for a middle inside the file. -/
theorem binarySearchRead_spec (hown : si.OwnIndex) {m : Nat} (hm : m < si.indexFile.length)
    (s : BinarySearchState κ) (hs : s.file = .index) :
    (si.binarySearchRead m s).sirCur = si.indexFile[m] ∧
    (m = 0 → (si.binarySearchRead m s).sih = si.header) ∧
    (∀ j (hj : m = j + 1), (si.binarySearchRead m s).sirPrev = si.indexFile[j]) ∧
    (∀ hj : m + 1 < si.indexFile.length,
      (si.binarySearchRead m s).sirNext = si.indexFile[m + 1]) ∧
    (si.binarySearchRead m s).file = .index := by
  have hpos : sequentialHeaderSize + (m : Int) * sequentialIndexSize = indexLayout.pos m := by
    simp only [indexLayout_pos, sequentialHeaderSize, sequentialIndexSize]
    omega
  have hread : si.moveReadRecord s.file (indexLayout.pos m) s.sirCur = (si.indexFile[m], s.file) := by
    rw [hs]
    exact moveReadRecord_index hm rfl _
  obtain ⟨sih, sirPrev, hprev, hsih, hsirPrev⟩ := binarySearchReadPrev_spec hown hm
    (s := { s with sirCur := si.indexFile[m] }) hs rfl
  obtain ⟨sirNext, hnext, hsirNext⟩ := binarySearchReadNext_spec hown hm
    (s := { s with sirCur := si.indexFile[m], sih, sirPrev }) hs rfl
  simp only [binarySearchRead, hpos, hread, hprev, hnext]
  exact ⟨trivial, hsih, hsirPrev, hsirNext, hs⟩

/-- The reads of a round leave the bounds. -/
theorem binarySearchRead_bounds (si : SequentialIndex κ) (mid : Int) (s : BinarySearchState κ) :
    (si.binarySearchRead mid s).logicalLeft = s.logicalLeft ∧
      (si.binarySearchRead mid s).logicalRight = s.logicalRight := by
  simp only [binarySearchRead, binarySearchReadPrev, binarySearchReadNext]
  split_ifs <;> exact ⟨rfl, rfl⟩

omit [KeyType κ] in
/-- A read stays on its file. -/
@[simp] theorem file_moveReadRecord {file : Stream} {pos : Int} {r : SequentialIndexRecord κ} :
    (si.moveReadRecord file pos r).2.file = file.file := rfl

/-- The reads of a round stay on their file. -/
theorem file_binarySearchRead (mid : Int) (s : BinarySearchState κ) :
    (si.binarySearchRead mid s).file.file = s.file.file := by
  simp only [binarySearchRead, binarySearchReadPrev, binarySearchReadNext]
  split_ifs <;> rfl

/-- What a round comes to with the middle `mid`, once it has read the records of `s`, for an index
file that ends at `last`. -/
inductive Round (k : κ) (mid last : Int) (s : BinarySearchState κ) :
    BinarySearchState κ ⊕ BinarySearchResponse κ → Prop
  | cur : s.sirCur.data = k → Round k mid last s (.inr
      { location := .recCur, sirPrev := s.sirPrev, sir := s.sirCur, sirNext := s.sirNext,
        file := s.file })
  | next : s.sirCur.data < k → Round k mid last s (.inr
      { location := .recNext, sirPrev := s.sirPrev, sir := s.sirCur, sirNext := s.sirNext,
        file := s.file })
  | first : s.sirCur.currentPos = sequentialHeaderSize → k < s.sirCur.data →
      Round k mid last s (.inr
        { location := .recPrev, sirPrev := s.sirPrev, sir := s.sirCur, sirNext := s.sirNext,
          header := true, sih := s.sih, file := s.file })
  | prev : s.sirCur.currentPos ≠ sequentialHeaderSize → s.sirPrev.data < k → k < s.sirCur.data →
      Round k mid last s (.inr
        { location := .recPrev, sirPrev := s.sirPrev, sir := s.sirCur, sirNext := s.sirNext,
          file := s.file })
  | right : s.sirCur.data < k → s.sirCur.currentPos + sequentialIndexSize ≠ last →
      Round k mid last s (.inl { s with logicalLeft := mid + 1 })
  | left : ¬ s.sirCur.data < k → Round k mid last s (.inl { s with logicalRight := mid - 1 })

/-- Every round ends in one of these ways. -/
theorem binarySearchBody_round (si : SequentialIndex κ) (k : κ) {s : BinarySearchState κ}
    (hle : s.logicalLeft ≤ s.logicalRight) : ∃ res, si.binarySearchBody k s = some res ∧
      Round k ((s.logicalLeft + s.logicalRight) / 2) (indexLayout.endPos si.indexFile)
        (si.binarySearchRead ((s.logicalLeft + s.logicalRight) / 2) s) res := by
  simp only [binarySearchBody, if_pos hle]
  generalize si.binarySearchRead ((s.logicalLeft + s.logicalRight) / 2) s = s1
  by_cases hk : s1.sirCur.data = k
  · exact ⟨_, if_pos hk, .cur hk⟩
  rw [if_neg hk]
  by_cases hlt : s1.sirCur.data < k
  · by_cases hlast : s1.sirCur.currentPos + sequentialIndexSize = indexLayout.endPos si.indexFile
    · exact ⟨_, if_pos ⟨hlast, hlt⟩, .next hlt⟩
    rw [if_neg fun h => hlast h.1, if_neg fun h => hlt.not_gt h.2, if_neg fun h => hlt.not_gt h.2]
    by_cases hnext : k < s1.sirNext.data
    · exact ⟨_, if_pos ⟨hlt, hnext⟩, .next hlt⟩
    · rw [if_neg fun h => hnext h.2]
      exact ⟨_, if_pos hlt, .right hlt hlast⟩
  · have hgt : k < s1.sirCur.data := lt_of_le_of_ne (not_lt.1 hlt) (Ne.symm hk)
    rw [if_neg fun h => hlt h.2]
    by_cases hfirst : s1.sirCur.currentPos = sequentialHeaderSize
    · exact ⟨_, if_pos ⟨hfirst, hgt⟩, .first hfirst hgt⟩
    rw [if_neg fun h => hfirst h.1]
    by_cases hprev : s1.sirPrev.data < k
    · exact ⟨_, if_pos ⟨hprev, hgt⟩, .prev hfirst hprev hgt⟩
    · rw [if_neg fun h => hprev h.1, if_neg fun h => hlt h.1]
      exact ⟨_, if_neg hlt, .left hlt⟩

/-- The invariant of the loop: the bounds are in range, the key is not outside of what is between
them, and the stream is good. -/
def SearchInv (si : SequentialIndex κ) (k : κ) (s : BinarySearchState κ) : Prop :=
  ∃ (l r : Nat) (hl : l < si.indexFile.length), s.logicalLeft = l ∧ s.logicalRight = r ∧ l ≤ r ∧
    r ≤ si.indexFile.length ∧ (l ≠ 0 → si.indexFile[l].data ≤ k) ∧
    (∀ hr : r < si.indexFile.length, k ≤ si.indexFile[r].data) ∧ s.file = .index

/-- One round finds the key or its neighbours, or halves the bounds around it. -/
theorem binarySearchBody_spec (h : si.Searchable) (s : BinarySearchState κ)
    (hs : SearchInv si k s) :
    (∃ bsr, Returns (fun _ => si.binarySearchBody k s) (.inr bsr) ∧ Found si k bsr) ∨
      ∃ s', Returns (fun _ => si.binarySearchBody k s) (.inl s') ∧ SearchInv si k s' ∧
        (s'.logicalRight - s'.logicalLeft).toNat + 1 <
          (s.logicalRight - s.logicalLeft).toNat + 1 := by
  obtain ⟨l, r, hl, hsl, hsr, hlr, hrn, hleft, hright, hfile⟩ := hs
  obtain ⟨m, hm⟩ : ∃ m : Nat, (s.logicalLeft + s.logicalRight) / 2 = (m : Int) :=
    ⟨(l + r) / 2, by rw [hsl, hsr]; omega⟩
  have hlm : l ≤ m := by omega
  have hmr : m ≤ r := by omega
  have hmn : m < si.indexFile.length := by omega
  obtain ⟨hcur, hsih, hprev, hnext, hgood⟩ := binarySearchRead_spec h.own hmn s hfile
  have hown := h.own m hmn
  have hlast : indexLayout.endPos si.indexFile = 24 + 88 * si.indexFile.length := rfl
  rw [indexLayout_pos] at hown
  simp only [binarySearchBody, if_pos (show s.logicalLeft ≤ s.logicalRight by omega), hm, hcur,
    hown, hlast, sequentialHeaderSize, sequentialIndexSize]
  generalize hs1 : si.binarySearchRead m s = s1 at *
  by_cases hk : si.indexFile[m].data = k
  · -- the key is at the middle
    refine .inl ⟨_, .of_eq fun _ => by rw [if_pos hk], ?_⟩
    exact .cur m hmn rfl rfl rfl hk hprev hgood
  rw [if_neg hk]
  by_cases hlt : si.indexFile[m].data < k
  · -- the key is above the middle: at the end, before the next record, or further right
    have hng : ¬ k < si.indexFile[m].data := hlt.not_gt
    by_cases hend : m + 1 = si.indexFile.length
    · refine .inl ⟨_, .of_eq fun _ => by rw [if_pos ⟨by omega, hlt⟩], ?_⟩
      exact .next m hmn rfl rfl rfl hlt (fun hj => by omega) hgood
    have hm1 : m + 1 < si.indexFile.length := by omega
    rw [if_neg (fun hc => hend (by omega)), if_neg (fun hc => hng hc.2),
      if_neg (fun hc => hng hc.2), hnext hm1]
    by_cases hltn : k < si.indexFile[m + 1].data
    · refine .inl ⟨_, .of_eq fun _ => by rw [if_pos ⟨hlt, hltn⟩], ?_⟩
      exact .next m hmn rfl rfl rfl hlt (fun _ => ⟨hltn, rfl⟩) hgood
    have hmr' : m < r := by
      -- the record at the right bound is not below the key, so it is not the middle
      refine lt_of_le_of_ne hmr ?_
      rintro rfl
      exact absurd (hright hmn) (not_le.2 hlt)
    refine .inr ⟨_, .of_eq fun _ => by rw [if_neg (fun hc => hltn hc.2), if_pos hlt], ?_, ?_⟩
    · refine ⟨m + 1, r, hm1, by simp, ?_, hmr', hrn, fun _ => not_lt.1 hltn, hright,
        hgood⟩
      rw [← hs1, (si.binarySearchRead_bounds _ s).2, hsr]
    · have : s1.logicalRight = s.logicalRight := by rw [← hs1, (si.binarySearchRead_bounds _ s).2]
      simp only [this]
      omega
  · -- the key is below the middle: at the front, behind the previous record, or further left
    have hgt : k < si.indexFile[m].data := lt_of_le_of_ne (not_lt.1 hlt) (Ne.symm hk)
    rw [if_neg (fun hc => hlt hc.2)]
    by_cases h0 : m = 0
    · subst h0
      refine .inl ⟨_, .of_eq fun _ => by rw [if_pos ⟨by simp, hgt⟩], ?_⟩
      exact .first hmn rfl rfl (hsih rfl) rfl hgt hgood
    obtain ⟨j, rfl⟩ := Nat.exists_eq_succ_of_ne_zero h0
    rw [if_neg (fun hc => h0 (by omega)), hprev j rfl]
    by_cases hgtp : si.indexFile[j].data < k
    · refine .inl ⟨_, .of_eq fun _ => by rw [if_pos ⟨hgtp, hgt⟩], ?_⟩
      exact .prev j hmn rfl rfl rfl rfl hgtp hgt hgood
    have hlj : l ≤ j := by
      by_contra hc
      obtain rfl : l = j + 1 := by omega
      exact absurd (hleft (by omega)) (not_le.2 hgt)
    refine .inr ⟨_, .of_eq fun _ => by
      rw [if_neg (fun hc => hgtp hc.1), if_neg (fun hc => hlt hc.1), if_neg hlt], ?_, ?_⟩
    · refine ⟨l, j, hl, ?_, by push_cast; omega, hlj, by omega, hleft, fun _ => not_lt.1 hgtp,
        hgood⟩
      rw [← hs1, (si.binarySearchRead_bounds _ s).1, hsl]
    · have : s1.logicalLeft = s.logicalLeft := by rw [← hs1, (si.binarySearchRead_bounds _ s).1]
      simp only [this]
      omega

/-- The index file has the record that was found. -/
theorem Found.nonempty {bsr : BinarySearchResponse κ} (hf : Found si k bsr) :
    si.indexFile ≠ [] :=
  List.ne_nil_of_length_pos (by cases hf <;> omega)

/-- A search that has found something does not report an empty file. -/
theorem Found.location_ne {bsr : BinarySearchResponse κ} (hf : Found si k bsr) :
    bsr.location ≠ .emptyFile := by
  cases hf <;> simp [*]

/-- A search that has found something leaves its stream good. -/
theorem Found.file_eq {bsr : BinarySearchResponse κ} (hf : Found si k bsr) : bsr.file = .index := by
  cases hf <;> assumption

/-- The binary search on a file with records comes back and reports where the key is. -/
theorem binarySearch_found (h : si.Searchable) (k : κ) :
    ∃ bsr, Returns (si.binarySearch · k) bsr ∧ Found si k bsr := by
  have hpos : 0 < si.indexFile.length := List.length_pos_of_ne_nil h.nonempty
  obtain ⟨bsr, hret, hf⟩ := LoopReturns.of_measure (I := SearchInv si k) (Q := Found si k)
    (fun s => (s.logicalRight - s.logicalLeft).toNat + 1)
    (fun s hs => binarySearchBody_spec h s hs)
    { logicalLeft := 0, logicalRight := si.indexFile.length }
    ⟨0, si.indexFile.length, hpos, rfl, rfl, by omega, le_rfl, by simp, fun hr => by omega, rfl⟩
  refine ⟨bsr, hret.returns.congr fun n => ?_, hf⟩
  rw [binarySearch, if_neg h.nonempty]

/-- On an index file without records the search reports so. -/
theorem binarySearch_empty (h : si.indexFile = []) (n : Nat) : si.binarySearch n k = some {} := by
  rw [binarySearch, if_pos h]

/-! ## What the search reads -/

/-- The offsets at which one round reads records of the index file. -/
def readOffsets (si : SequentialIndex κ) (logicalMid : Int) (s : BinarySearchState κ) : List Int :=
  let physicalLast := indexLayout.endPos si.indexFile
  let physicalMid := sequentialHeaderSize + logicalMid * sequentialIndexSize
  let sirCur := (si.moveReadRecord s.file physicalMid s.sirCur).1
  let isFirst := sirCur.currentPos = sequentialHeaderSize
  let here := if isFirst then sequentialHeaderSize else physicalMid
  physicalMid :: ((if isFirst then [] else [physicalMid - sequentialIndexSize]) ++
    if sirCur.currentPos + sequentialIndexSize ≠ physicalLast then [here + sequentialIndexSize]
    else [])

omit [KeyType κ] in
/-- A read of the index file depends on what stands at its offset, and leaves the stream on the
index file. -/
theorem moveReadRecord_congr {si' : SequentialIndex κ} {file : Stream} (hfile : file.file = .index)
    {pos : Int} (hread : indexLayout.read si'.indexFile pos = indexLayout.read si.indexFile pos)
    (r : SequentialIndexRecord κ) :
    si'.moveReadRecord file pos r = si.moveReadRecord file pos r ∧
      (si.moveReadRecord file pos r).2.file = .index := by
  simp only [moveReadRecord, hfile, Rdbms.moveReadRecord, hread]
  exact ⟨trivial, trivial⟩

/-- The read in front of the middle record. -/
theorem binarySearchReadPrev_congr {si' : SequentialIndex κ} (mid : Int) {s : BinarySearchState κ}
    (hfile : s.file.file = .index) (hheader : si'.header = si.header)
    (hread : s.sirCur.currentPos ≠ sequentialHeaderSize →
      indexLayout.read si'.indexFile (mid - sequentialIndexSize) =
        indexLayout.read si.indexFile (mid - sequentialIndexSize)) :
    si'.binarySearchReadPrev mid s = si.binarySearchReadPrev mid s ∧
      (si.binarySearchReadPrev mid s).1.sirCur = s.sirCur ∧
      (si.binarySearchReadPrev mid s).1.file.file = .index ∧
      (si.binarySearchReadPrev mid s).2 =
        if s.sirCur.currentPos = sequentialHeaderSize then sequentialHeaderSize else mid := by
  by_cases hfirst : s.sirCur.currentPos = sequentialHeaderSize
  · simp only [binarySearchReadPrev, hfirst, ne_eq, not_true, if_false, if_true, readHeader, hheader]
    exact ⟨trivial, trivial, hfile, trivial⟩
  · obtain ⟨hprev, hfile'⟩ := moveReadRecord_congr hfile (hread hfirst) s.sirPrev
    simp only [binarySearchReadPrev, ne_eq, hfirst, not_false_eq_true, if_true, if_false, hprev]
    exact ⟨trivial, trivial, hfile', trivial⟩

/-- The read behind the middle record. -/
theorem binarySearchReadNext_congr {si' : SequentialIndex κ} {here : Int} {s : BinarySearchState κ}
    (hfile : s.file.file = .index) (hlen : si'.indexFile.length = si.indexFile.length)
    (hread : s.sirCur.currentPos + sequentialIndexSize ≠ indexLayout.endPos si.indexFile →
      indexLayout.read si'.indexFile (here + sequentialIndexSize) =
        indexLayout.read si.indexFile (here + sequentialIndexSize)) :
    si'.binarySearchReadNext here s = si.binarySearchReadNext here s := by
  have hend : indexLayout.endPos si'.indexFile = indexLayout.endPos si.indexFile := by
    rw [Layout.endPos, Layout.endPos, hlen]
  by_cases hlast : s.sirCur.currentPos + sequentialIndexSize = indexLayout.endPos si.indexFile
  · simp only [binarySearchReadNext, hend, hlast, ne_eq, not_true, if_false]
  · obtain ⟨hnext, -⟩ := moveReadRecord_congr hfile (hread hlast) s.sirNext
    simp only [binarySearchReadNext, hend, hnext]

/-- A round depends on the header, the length of the index file and its records at these offsets. -/
theorem binarySearchRead_congr {si' : SequentialIndex κ} {mid : Int} {s : BinarySearchState κ}
    (hfile : s.file.file = .index) (hheader : si'.header = si.header)
    (hlen : si'.indexFile.length = si.indexFile.length)
    (hread : ∀ p ∈ si.readOffsets mid s,
      indexLayout.read si'.indexFile p = indexLayout.read si.indexFile p) :
    si'.binarySearchRead mid s = si.binarySearchRead mid s := by
  obtain ⟨hcur, hfile⟩ := moveReadRecord_congr hfile (hread _ (.head _)) s.sirCur
  simp only [readOffsets, List.mem_cons, List.mem_append] at hread
  simp only [binarySearchRead, hcur]
  generalize si.moveReadRecord s.file _ s.sirCur = cur at *
  obtain ⟨hprev, hsirCur, hfile, hhere⟩ := binarySearchReadPrev_congr
    (sequentialHeaderSize + mid * sequentialIndexSize)
    (s := { s with sirCur := cur.1, file := cur.2 }) hfile hheader fun hfirst =>
      hread _ (.inr (.inl (by rw [if_neg hfirst]; exact .head _)))
  rw [hprev]
  refine binarySearchReadNext_congr hfile hlen fun hlast => ?_
  rw [hsirCur] at hlast
  rw [hhere]
  exact hread _ (.inr (.inr (by rw [if_pos hlast]; exact .head _)))

/-- The search reads nothing of the overflow file. -/
theorem binarySearch_auxFile (aux : List (SequentialIndexRecord κ)) (n : Nat) :
    ({ si with auxFile := aux } : SequentialIndex κ).binarySearch n k = si.binarySearch n k := by
  have hbody : ∀ s : BinarySearchState κ, s.file.file = .index →
      ({ si with auxFile := aux } : SequentialIndex κ).binarySearchBody k s =
        si.binarySearchBody k s := fun s hs => by
    have hread : ∀ mid, ({ si with auxFile := aux } : SequentialIndex κ).binarySearchRead mid s =
        si.binarySearchRead mid s := fun mid => binarySearchRead_congr hs rfl rfl fun _ _ => rfl
    simp only [binarySearchBody, hread]
  rw [binarySearch, binarySearch]
  split_ifs
  · rfl
  refine loop_congr (I := fun s => s.file.file = .index) hbody (fun s s' hs hround => ?_) n rfl
  have hle : s.logicalLeft ≤ s.logicalRight := by
    by_contra hc
    simp only [binarySearchBody, if_neg hc] at hround
    cases hround
  obtain ⟨res, hres, hr⟩ := binarySearchBody_round ({ si with auxFile := aux } : SequentialIndex κ) k
    hle
  obtain rfl : res = .inl s' := Option.some.inj (hres.symm.trans hround)
  cases hr with
  | right _ => exact (file_binarySearchRead _ s).trans hs
  | left _ => exact (file_binarySearchRead _ s).trans hs

/-- Every round of the search reads inside the index file. -/
theorem readOffsets_mem (h : si.Searchable) {s : BinarySearchState κ} (hs : SearchInv si k s) :
    s.logicalLeft ≤ s.logicalRight ∧
      ∀ p ∈ si.readOffsets ((s.logicalLeft + s.logicalRight) / 2) s,
        ∃ i < si.indexFile.length, p = indexLayout.pos i := by
  obtain ⟨l, r, hl, hsl, hsr, hlr, hrn, -, -, hfile⟩ := hs
  obtain ⟨m, hm⟩ : ∃ m : Nat, (s.logicalLeft + s.logicalRight) / 2 = (m : Int) :=
    ⟨(l + r) / 2, by rw [hsl, hsr]; omega⟩
  have hmn : m < si.indexFile.length := by omega
  have hcur := moveReadRecord_index hmn (p := sequentialHeaderSize + m * sequentialIndexSize)
    (by rw [indexLayout_pos, sequentialHeaderSize, sequentialIndexSize]; omega) s.sirCur
  have hown := h.own m hmn
  have hlast : indexLayout.endPos si.indexFile = 24 + 88 * si.indexFile.length := rfl
  rw [indexLayout_pos] at hown
  refine ⟨by omega, fun p hp => ?_⟩
  simp only [readOffsets, hm, hfile, hcur, hown, hlast, sequentialHeaderSize, sequentialIndexSize,
    List.mem_cons, List.mem_append] at hp
  rcases hp with rfl | hp | hp
  · exact ⟨m, hmn, by rw [indexLayout_pos]; omega⟩
  · split_ifs at hp with hfirst
    · cases hp
    · rw [List.mem_singleton] at hp
      exact ⟨m - 1, by omega, by rw [hp, indexLayout_pos]; omega⟩
  · split_ifs at hp with hend hfirst
    · rw [List.mem_singleton] at hp
      exact ⟨m + 1, by omega, by rw [hp, indexLayout_pos]; omega⟩
    · rw [List.mem_singleton] at hp
      exact ⟨m + 1, by omega, by rw [hp, indexLayout_pos]; omega⟩
    · cases hp

/-- The invariant holds in every round. -/
theorem searchInv_of_reaches (h : si.Searchable) {s t : BinarySearchState κ}
    (hreach : LoopReaches (si.binarySearchBody k) s t) (hs : SearchInv si k s) :
    SearchInv si k t := by
  refine hreach.inv hs fun s s' hs hbody => ?_
  have hret : Returns (fun _ => si.binarySearchBody k s) (.inl s') := .of_eq fun _ => hbody
  rcases binarySearchBody_spec h s hs with ⟨bsr, hdone, -⟩ | ⟨s'', hnext, hinv, -⟩
  · cases hret.unique hdone
  · cases hret.unique hnext
    exact hinv

/-! ## The law of the search -/

/-- The last record below the key is reported when the search says that the key comes after it. -/
theorem Found.greatest (h : si.Searchable) {bsr : BinarySearchResponse κ} (hf : Found si k bsr)
    (hloc : bsr.location = .recNext) {r : SequentialIndexRecord κ} (hr : r ∈ si.indexFile)
    (hlt : r.data < k) : r.data ≤ bsr.sir.data := by
  cases hf with
  | cur i hi location => rw [location] at hloc; cases hloc
  | first hi location => rw [location] at hloc; cases hloc
  | prev i hi location => rw [location] at hloc; cases hloc
  | next i hi location header sir gt lt =>
    obtain ⟨j, hj, rfl⟩ := List.mem_iff_getElem.1 hr
    rw [sir]
    refine h.sorted.getElem_le ?_ hi
    by_contra hij
    have hi1 : i + 1 < si.indexFile.length := by omega
    have hle := h.sorted.getElem_le (show i + 1 ≤ j by omega) hj
    exact ((lt hi1).1.trans_le hle).not_gt hlt

/-- The key is reported when, and only when, the index file has it. -/
theorem Found.recCur_iff (h : si.Searchable) {bsr : BinarySearchResponse κ} (hf : Found si k bsr) :
    bsr.location = .recCur ↔ ∃ r ∈ si.indexFile, r.data = k := by
  cases hf with
  | cur i hi location header sir data =>
    exact iff_of_true location ⟨_, List.getElem_mem hi, data⟩
  | first hi location header sih sir lt =>
    refine iff_of_false (by simp [location]) ?_
    rintro ⟨r, hr, rfl⟩
    obtain ⟨j, hj, rfl⟩ := List.mem_iff_getElem.1 hr
    exact (h.sorted.getElem_le (Nat.zero_le j) hj).not_gt lt
  | prev i hi location header sirPrev sir gt lt =>
    refine iff_of_false (by simp [location]) ?_
    rintro ⟨r, hr, rfl⟩
    obtain ⟨j, hj, rfl⟩ := List.mem_iff_getElem.1 hr
    rcases Nat.lt_or_ge i j with hij | hij
    · exact (h.sorted.getElem_le hij hj).not_gt lt
    · exact (h.sorted.getElem_le hij (by omega)).not_gt gt
  | next i hi location header sir gt lt =>
    refine iff_of_false (by simp [location]) ?_
    rintro ⟨r, hr, rfl⟩
    obtain ⟨j, hj, rfl⟩ := List.mem_iff_getElem.1 hr
    rcases Nat.lt_or_ge i j with hij | hij
    · exact (h.sorted.getElem_le hij hj).not_gt (lt (by omega)).1
    · exact (h.sorted.getElem_le hij hi).not_gt gt

/-- The header is reported when, and only when, the key is below the first record. -/
theorem Found.header_iff (h : si.Searchable) {bsr : BinarySearchResponse κ} (hf : Found si k bsr) :
    bsr.header = true ↔ ∀ r ∈ si.indexFile, k < r.data := by
  cases hf with
  | cur i hi location header sir data =>
    refine iff_of_false (by simp [header]) fun hall => ?_
    exact (hall _ (List.getElem_mem hi)).ne' data
  | first hi location header sih sir lt =>
    refine iff_of_true header fun r hr => ?_
    obtain ⟨j, hj, rfl⟩ := List.mem_iff_getElem.1 hr
    exact lt.trans_le (h.sorted.getElem_le (Nat.zero_le j) hj)
  | prev i hi location header sirPrev sir gt lt =>
    refine iff_of_false (by simp [header]) fun hall => ?_
    exact (hall _ (List.getElem_mem (Nat.lt_of_succ_lt hi))).not_gt gt
  | next i hi location header sir gt lt =>
    refine iff_of_false (by simp [header]) fun hall => ?_
    exact (hall _ (List.getElem_mem hi)).not_gt gt

/-- On every index file with strictly increasing keys in which each record stores its own position:
an empty one is reported as such; on one with records every round reads inside the file, and the
search comes back with the record of the key or with its neighbours. -/
theorem binarySearch_exact (hsorted : SortedBy (·.data) si.indexFile)
    (hown : ∀ i (h : i < si.indexFile.length), si.indexFile[i].currentPos = indexLayout.pos i)
    (k : κ) :
    (si.indexFile = [] → ∃ bsr, Returns (si.binarySearch · k) bsr ∧ bsr.location = .emptyFile) ∧
    (si.indexFile ≠ [] →
      (∀ s, LoopReaches (si.binarySearchBody k)
          { logicalLeft := 0, logicalRight := si.indexFile.length } s →
        s.logicalLeft ≤ s.logicalRight ∧
          ∀ p ∈ si.readOffsets ((s.logicalLeft + s.logicalRight) / 2) s,
            ∃ i < si.indexFile.length, p = indexLayout.pos i) ∧
      ∃ bsr, Returns (si.binarySearch · k) bsr ∧ Found si k bsr ∧
        (bsr.location = .recCur ↔ ∃ r ∈ si.indexFile, r.data = k) ∧
        (bsr.header = true ↔ ∀ r ∈ si.indexFile, k < r.data) ∧
        (bsr.location = .recNext → ∀ r ∈ si.indexFile, r.data < k → r.data ≤ bsr.sir.data)) := by
  refine ⟨fun he => ⟨{}, .of_eq (binarySearch_empty he), rfl⟩, fun hne => ?_⟩
  have h : si.Searchable := ⟨hne, hsorted, hown⟩
  have hpos : 0 < si.indexFile.length := List.length_pos_of_ne_nil hne
  refine ⟨fun s hreach => readOffsets_mem h (k := k) (searchInv_of_reaches h hreach ?_), ?_⟩
  · exact ⟨0, si.indexFile.length, hpos, rfl, rfl, Nat.zero_le _, le_rfl, by simp,
      fun hr => absurd hr (lt_irrefl _), rfl⟩
  · obtain ⟨bsr, hret, hf⟩ := binarySearch_found h k
    exact ⟨bsr, hret, hf, hf.recCur_iff h, hf.header_iff h, fun hloc r hr => hf.greatest h hloc hr⟩

/-- A search between two records. -/
theorem binarySearch_exact_sample : ∃ si : SequentialIndex Int, si.indexFile.length = 2 ∧
    ∃ bsr, Returns (si.binarySearch · 15) bsr ∧ Found si 15 bsr := by
  let r1 : SequentialIndexRecord Int := ⟨⟨10, 100, -1⟩, 24, .indexFile, 112, .indexFile⟩
  let r2 : SequentialIndexRecord Int := ⟨⟨20, 200, -1⟩, 112, .indexFile, -1, .indexFile⟩
  let si : SequentialIndex Int := ⟨false, ⟨24, .indexFile⟩, [r1, r2], [], []⟩
  have hsorted : SortedBy (·.data) si.indexFile := by unfold SortedBy; decide
  obtain ⟨-, bsr, hret, hf, -⟩ := (binarySearch_exact hsorted (by decide) 15).2 (by decide)
  exact ⟨si, rfl, bsr, hret, hf⟩

end SequentialIndex

end Rdbms
