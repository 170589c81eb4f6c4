import Rdbms.Sequential.BulkInsert
import Rdbms.Sequential.Run

/-!
# What `bulk_insert` loads

On an index file without records, `bulk_insert` writes the records of the batch in physical order,
one for each key, with the later positions of a key in its chain of duplicates (`Loaded`). The
record in `sir_prev` is all the time the last record of the file.

`bulkInsert_loads` asks nothing of the overflow file. When all links of an index lead into the index
file, its queries do not read the overflow file (`search_of_flat`, `rangeSearch_of_flat`), so they
answer as on the index without it.
-/

namespace Rdbms

namespace SequentialIndex
variable {κ : Type} [KeyType κ] {si : SequentialIndex κ} {log records : List (κ × Int)}
  {s : BulkState κ} {record : κ × Int} {m : Multimap κ Int}

/-! ## The loop -/

/-- After the pairs `log` of the batch: the index file is in physical and in key order, `sir_prev`
is its last record, and it holds the pairs. -/
structure Loaded (si : SequentialIndex κ) (log : List (κ × Int)) (s : BulkState κ) : Prop where
  frame : s.si =
    { si with indexFile := s.si.indexFile, duplicatesFile := s.si.duplicatesFile }
  file : ∃ pre, s.si.indexFile = pre ++ [s.sirPrev]
  numbered : Renumbered 0 s.si.indexFile
  sorted : SortedBy (·.data) s.si.indexFile
  holds : ∃ m, s.si.Contents s.si.indexFile m ∧ m.pairs.Perm log
  last : ∃ p ∈ log, p.1 = s.sirPrev.data

/-- The file of the first pair. -/
theorem bulkFirst_indexFile (h : si.indexFile = []) (record : κ × Int) :
    (si.bulkFirst record).si.indexFile =
      [⟨⟨record.1, record.2, endOfFile⟩, 24, .indexFile, endOfFile, .indexFile⟩] := by
  show indexLayout.write si.indexFile 24 _ = _
  rw [h]
  exact Layout.write_endPos (L := indexLayout) (f := [])

/-- The first pair is the only one. -/
theorem bulkFirst_contents (h : si.indexFile = []) (record : κ × Int) :
    (si.bulkFirst record).si.Contents (si.bulkFirst record).si.indexFile
      (Multimap.empty.insert record.1 record.2) := by
  rw [bulkFirst_indexFile h]
  exact Multimap.Represented.insert_front (R := si.RecordHolds) key_of_recordHolds .nil (by simp)
    (fun _ _ he => he) (recordHolds_single rfl)

/-- The first pair of a load. -/
theorem loaded_first (h : si.indexFile = []) (record : κ × Int) :
    Loaded si [record] (si.bulkFirst record) := by
  have hfile := bulkFirst_indexFile h record
  refine ⟨rfl, ⟨[], hfile⟩, ?_, ?_, ⟨_, bulkFirst_contents h record, Multimap.pairs_insert⟩,
    ⟨record, .head _, rfl⟩⟩
  · rw [hfile]
    exact ⟨rfl, rfl, trivial⟩
  · rw [hfile]
    exact List.pairwise_singleton _ _

/-- `sir_prev` knows its place. -/
theorem Loaded.sirPrev (h : Loaded si log s) : ∃ pre, s.si.indexFile = pre ++ [s.sirPrev] ∧
    s.sirPrev.loc = (indexLayout.endPos pre, .indexFile) ∧ s.sirPrev.link = endLink ∧
    ∀ (dups : List (SequentialIndexRecord κ)) x,
      ({ s.si with duplicatesFile := dups } : SequentialIndex κ).moveWriteRecord .index
        s.sirPrev.currentPos x =
          ({ s.si with indexFile := pre ++ [x], duplicatesFile := dups }, .index) := by
  obtain ⟨pre, hfile⟩ := h.file
  have hnum := h.numbered
  rw [hfile] at hnum
  obtain ⟨hloc, hlink, -⟩ := hnum.of_append
  rw [Nat.zero_add] at hloc
  have hpos : s.sirPrev.currentPos = indexLayout.endPos pre := (Prod.mk.inj hloc).1
  refine ⟨pre, hfile, hloc, hlink, fun dups x => ?_⟩
  rw [moveWriteRecord_index (hpos ▸ Layout.pos_nonneg), hpos, hfile, Layout.write_last]

/-- What a round does for one more position of the last key. -/
theorem Loaded.bulkNext_duplicate (h : Loaded si log s) (hk : record.1 = s.sirPrev.data)
    {pre : List (SequentialIndexRecord κ)} (hfile : s.si.indexFile = pre ++ [s.sirPrev]) :
    let dup := (bulkRecord s.sirCur record).setDupPos s.sirPrev.dupPos
    let prev := s.sirPrev.setDupPos (duplicatesLayout.endPos s.si.duplicatesFile)
    bulkNext s record =
      ⟨{ s.si with
          indexFile := pre ++ [prev], duplicatesFile := s.si.duplicatesFile ++ [dup] },
        prev, dup⟩ := by
  intro dup prev
  obtain ⟨pre', hfile', -, -, hwrite⟩ := h.sirPrev
  obtain rfl := List.append_cancel_right (hfile'.symm.trans hfile)
  have hsi : s.si.insertDuplicate .index s.sirPrev (bulkRecord s.sirCur record) =
      { s.si with
        indexFile := pre' ++ [prev], duplicatesFile := s.si.duplicatesFile ++ [dup] } :=
    congrArg Prod.fst (hwrite _ prev)
  rw [bulkNext, if_pos (show (bulkRecord s.sirCur record).data = s.sirPrev.data from hk), hsi]

/-- What a round does for a new key. -/
theorem Loaded.bulkNext_append (h : Loaded si log s) (hlt : s.sirPrev.data < record.1)
    {pre : List (SequentialIndexRecord κ)} (hfile : s.si.indexFile = pre ++ [s.sirPrev]) :
    let cur : SequentialIndexRecord κ := ⟨⟨record.1, record.2, endOfFile⟩,
      indexLayout.pos (pre.length + 1), .indexFile, endOfFile, .indexFile⟩
    let prev := s.sirPrev.setNext (indexLayout.pos (pre.length + 1)) .indexFile
    bulkNext s record = ⟨{ s.si with indexFile := pre ++ [prev] ++ [cur] }, cur, cur⟩ := by
  intro cur prev
  obtain ⟨pre', hfile', hloc, -, hwrite⟩ := h.sirPrev
  obtain rfl := List.append_cancel_right (hfile'.symm.trans hfile)
  have hcur : s.sirPrev.currentPos + sequentialIndexSize = indexLayout.pos (pre'.length + 1) := by
    rw [Layout.pos_succ]
    exact congrArg (· + sequentialIndexSize) (Prod.mk.inj hloc).1
  have h1 : s.si.moveWriteRecord .index prev.currentPos prev =
      ({ s.si with indexFile := pre' ++ [prev] }, .index) := hwrite _ prev
  have h2 : cur.currentPos = indexLayout.endPos (pre' ++ [prev]) := by
    rw [Layout.endPos, List.length_append, List.length_singleton]
  have h3 : 0 ≤ indexLayout.endPos (pre' ++ [prev]) := Layout.pos_nonneg
  rw [bulkNext, if_neg (show ¬ (bulkRecord s.sirCur record).data = s.sirPrev.data from hlt.ne')]
  show BulkState.mk _ _ _ = _
  simp only [SequentialIndexRecord.setCurrent, SequentialIndexRecord.setNext, hcur]
  show BulkState.mk ((s.si.moveWriteRecord .index prev.currentPos prev).1.moveWriteRecord .index
    cur.currentPos cur).1 cur cur = _
  rw [h1, h2, moveWriteRecord_index h3, Layout.write_endPos]

/-- The keys in front of a new one are smaller. -/
theorem Loaded.lt_of_mem {k : κ} (h : Loaded si log s) (hlt : s.sirPrev.data < k)
    {pre : List (SequentialIndexRecord κ)} (hfile : s.si.indexFile = pre ++ [s.sirPrev])
    {x : SequentialIndexRecord κ} (hx : x ∈ pre ∨ x.data = s.sirPrev.data) : x.data < k := by
  have hsort := h.sorted
  rw [hfile] at hsort
  rcases hx with hx | hx
  · exact (hsort.around.1 x hx).trans hlt
  · rwa [hx]

/-- A round inserts its pair. -/
theorem Loaded.contents (h : Loaded si log s) (hm : s.si.Contents s.si.indexFile m)
    (hle : s.sirPrev.data ≤ record.1) :
    (bulkNext s record).si.Contents (bulkNext s record).si.indexFile
      (m.insert record.1 record.2) := by
  obtain ⟨pre, hfile⟩ := h.file
  rcases hle.eq_or_lt with heq | hlt
  · rw [hfile] at hm
    rw [h.bulkNext_duplicate heq.symm hfile]
    refine Multimap.Represented.insert_mem (a := s.sirPrev) key_of_recordHolds hm heq
      (fun a e he => ⟨he.1, he.2.append _⟩) fun e he => ⟨he.1, ?_⟩
    exact he.2.insertDuplicate ((bulkRecord s.sirCur record).setDupPos s.sirPrev.dupPos) rfl
  · let prev := s.sirPrev.setNext (indexLayout.pos (pre.length + 1)) .indexFile
    have hbelow : ∀ x ∈ pre ++ [prev], x.data < record.1 := by
      intro x hx
      refine h.lt_of_mem hlt hfile ((List.mem_append.1 hx).imp id fun hx => ?_)
      rw [List.mem_singleton.1 hx]
      rfl
    rw [hfile] at hm
    have hm' : Multimap.Represented s.si.RecordHolds (pre ++ [prev] ++ []) m := by
      rw [List.append_nil]
      exact Multimap.forall₂_rewrite hm fun e he => he
    rw [h.bulkNext_append hlt hfile]
    exact Multimap.Represented.insert_new key_of_recordHolds hm' hbelow (by simp)
      (fun _ _ he => he) (recordHolds_single rfl)

/-- The pairs after a round. -/
theorem Loaded.holds_bulkNext (h : Loaded si log s) (hle : s.sirPrev.data ≤ record.1) :
    ∃ m, (bulkNext s record).si.Contents (bulkNext s record).si.indexFile m ∧
      m.pairs.Perm (log ++ [record]) := by
  obtain ⟨m, hm, hlog⟩ := h.holds
  exact ⟨_, h.contents hm hle, Multimap.pairs_insert.trans
    ((hlog.cons _).trans (List.perm_append_singleton _ _).symm)⟩

/-- A round for one more position of the last key. -/
theorem Loaded.duplicate (h : Loaded si log s) (hk : record.1 = s.sirPrev.data) :
    Loaded si (log ++ [record]) (bulkNext s record) := by
  obtain ⟨pre, hfile, hloc, hlink, -⟩ := h.sirPrev
  have hholds := h.holds_bulkNext hk.ge
  have hnum := h.numbered
  have hsort := h.sorted
  rw [hfile] at hnum hsort
  rw [h.bulkNext_duplicate hk hfile] at hholds ⊢
  refine ⟨by rw [h.frame], ⟨pre, rfl⟩, hnum.replace (by simp) (by simp) ⟨?_, hlink, trivial⟩,
    hsort.replace rfl, hholds, ⟨record, by simp, hk⟩⟩
  rw [Nat.zero_add]
  exact hloc

/-- A round for a new key: its record is the new last one, and the one before is linked to it. -/
theorem Loaded.append (h : Loaded si log s) (hlt : s.sirPrev.data < record.1) :
    Loaded si (log ++ [record]) (bulkNext s record) := by
  obtain ⟨pre, hfile, hloc, hlink, -⟩ := h.sirPrev
  have hholds := h.holds_bulkNext hlt.le
  have hnum := h.numbered
  have hsort := h.sorted
  rw [hfile] at hnum hsort
  rw [h.bulkNext_append hlt hfile] at hholds ⊢
  refine ⟨by rw [h.frame], ⟨_, rfl⟩, ?_, ?_, hholds, ⟨record, by simp, rfl⟩⟩
  · rw [List.append_assoc]
    refine hnum.replace (by simp) (by simp) ?_
    rw [Nat.zero_add]
    exact ⟨hloc, rfl, rfl, rfl, trivial⟩
  · refine SortedBy.append_iff.2 ⟨hsort.replace rfl, List.pairwise_singleton _ _, fun x hx y hy => ?_⟩
    rw [List.mem_singleton.1 hy]
    refine h.lt_of_mem hlt hfile ((List.mem_append.1 hx).imp id fun hx => ?_)
    rw [List.mem_singleton.1 hx]
    rfl

/-- The loop over pairs in key order. -/
theorem Loaded.foldl : ∀ {records log : List (κ × Int)} {s : BulkState κ}, Loaded si log s →
    (log ++ records).Pairwise (fun a b => a.1 ≤ b.1) →
    Loaded si (log ++ records) (records.foldl bulkNext s)
  | [], log, s, h, _ => by simpa using h
  | record :: records, log, s, h, hsorted => by
    have hle : ∀ p ∈ log, p.1 ≤ record.1 := fun p hp =>
      (List.pairwise_append.1 hsorted).2.2 p hp record (.head _)
    obtain ⟨p, hp, hpk⟩ := h.last
    have hnext : Loaded si (log ++ [record]) (bulkNext s record) := by
      rcases (hpk ▸ hle p hp).eq_or_lt with heq | hlt
      · exact h.duplicate heq.symm
      · exact h.append hlt
    rw [List.append_cons] at hsorted ⊢
    exact hnext.foldl hsorted

/-! ## Queries that stay in the index file -/

/-- All links lead into the index file. -/
structure Flat (si : SequentialIndex κ) : Prop where
  header : si.header.nextFile = .indexFile
  records : ∀ r ∈ si.indexFile, r.nextFile = .indexFile

variable {bsr : BinarySearchResponse κ} {k b e : κ} {r : SequentialIndexRecord κ}

/-- Next to the gap of a key there are no overflow records to look through. -/
theorem Flat.searchAuxFile (h : si.Flat) (hf : Found si k bsr) (hne : bsr.location ≠ .recCur) :
    ∃ x ∈ si.indexFile, ∀ (si' : SequentialIndex κ) (n : Nat),
      si'.searchAuxFile n k bsr [] = some ([], x) := by
  cases hf with
  | cur _ _ location => exact absurd location hne
  | first hi location header sih sir =>
    refine ⟨bsr.sir, sir ▸ List.getElem_mem hi, fun si' n => ?_⟩
    rw [SequentialIndex.searchAuxFile, if_pos header, sih, if_pos h.header]
  | prev i hi location header sirPrev =>
    have hmem : bsr.sirPrev ∈ si.indexFile := sirPrev ▸ List.getElem_mem _
    refine ⟨bsr.sirPrev, hmem, fun si' n => ?_⟩
    have hgap : gapRecord bsr = bsr.sirPrev := if_pos location
    rw [searchAuxFile_of_not_header header, hgap, if_pos (h.records _ hmem)]
  | next i hi location header sir =>
    have hmem : bsr.sir ∈ si.indexFile := sir ▸ List.getElem_mem hi
    refine ⟨bsr.sir, hmem, fun si' n => ?_⟩
    have hgap : gapRecord bsr = bsr.sir := if_neg (by rw [location]; decide)
    rw [searchAuxFile_of_not_header header, hgap, if_pos (h.records _ hmem)]

omit [KeyType κ] in
/-- What is read from the index file over one of its records is again one of its records. -/
theorem moveReadRecord_index_mem {file : Stream} (hfile : file.file = .index) {pos : Int}
    (hr : r ∈ si.indexFile) : (si.moveReadRecord file pos r).1 ∈ si.indexFile := by
  simp only [moveReadRecord, hfile]
  exact moveReadRecord_mem hr

/-- The walk of `range_search` from a record of the index file. -/
theorem Flat.rangeSearchFrom (h : si.Flat) (aux : List (SequentialIndexRecord κ)) (n : Nat)
    (records : List Int) (hr : r ∈ si.indexFile) :
    ({ si with auxFile := aux } : SequentialIndex κ).rangeSearchFrom n .index b e (records, r) =
      si.rangeSearchFrom n .index b e (records, r) := by
  have hloop : ∀ {x : SequentialIndexRecord κ} {file : Stream}, x ∈ si.indexFile →
      file.file = .index →
        loop (({ si with auxFile := aux } : SequentialIndex κ).rangeSearchBody n e) n
          ((x, { indexFile := file }), records) =
        loop (si.rangeSearchBody n e) n ((x, { indexFile := file }), records) := by
    intro x file hx hfile
    refine loop_congr (I := fun s => s.1.1 ∈ si.indexFile ∧ s.1.2.indexFile.file = .index) ?_ ?_ n
      ⟨hx, hfile⟩
    · rintro ⟨⟨y, files⟩, records⟩ ⟨hy, hfile⟩
      have hread : ({ si with auxFile := aux } : SequentialIndex κ).moveReadRecord files.indexFile
          y.nextPos y = si.moveReadRecord files.indexFile y.nextPos y := by
        refine (moveReadRecord_congr hfile ?_ y).1
        rfl
      simp only [rangeSearchBody, moveReadNext, h.records y hy, if_true, hread]
      rfl
    · rintro ⟨⟨y, files⟩, records⟩ s' ⟨hy, hfile⟩ hbody
      simp only [rangeSearchBody, moveReadNext, h.records y hy, if_true] at hbody
      split_ifs at hbody
      · obtain ⟨_, -, hres⟩ := Option.map_eq_some_iff.1 hbody
        cases hres
      · obtain ⟨_, -, hres⟩ := Option.map_eq_some_iff.1 hbody
        cases hres
        exact ⟨moveReadRecord_index_mem hfile hy, hfile⟩
      · cases hbody
  simp only [SequentialIndex.rangeSearchFrom, h.records r hr, if_true]
  split_ifs
  · rfl
  · exact hloop (moveReadRecord_index_mem rfl hr) rfl
  · exact hloop hr rfl

/-- On flat files `search` does not see the second file. -/
theorem search_of_flat (h : si.Flat) (hs : si.indexFile ≠ [] → si.Searchable)
    (aux : List (SequentialIndexRecord κ)) {res : List Int}
    (hret : Returns (({ si with auxFile := aux } : SequentialIndex κ).search · k) res) :
    Returns (si.search · k) res := by
  by_cases he : si.indexFile = []
  · have he' : ({ si with auxFile := aux } : SequentialIndex κ).indexFile = [] := he
    exact hret.congr fun n => by
      rw [search, search, binarySearch_empty he, binarySearch_empty he']
      rfl
  obtain ⟨bsr, hbsr, hf⟩ := binarySearch_found (hs he) k
  filter_upwards [hret, hbsr] with n hn hb
  rw [search, binarySearch_auxFile, hb] at hn
  rw [search, hb]
  by_cases hcur : bsr.location = .recCur
  · simp only [Option.bind_eq_bind, Option.bind_some, hcur] at hn ⊢
    exact hn
  · obtain ⟨x, -, hx⟩ := h.searchAuxFile hf hcur
    simp only [Option.bind_eq_bind, Option.bind_some, hx] at hn ⊢
    exact hn

/-- On flat files `range_search` does not see the second file. -/
theorem rangeSearch_of_flat (h : si.Flat) (hs : si.indexFile ≠ [] → si.Searchable)
    (aux : List (SequentialIndexRecord κ)) {res : List Int}
    (hret : Returns (({ si with auxFile := aux } : SequentialIndex κ).rangeSearch · b e) res) :
    Returns (si.rangeSearch · b e) res := by
  by_cases he : si.indexFile = []
  · have he' : ({ si with auxFile := aux } : SequentialIndex κ).indexFile = [] := he
    exact hret.congr fun n => by
      rw [rangeSearch, rangeSearch, binarySearch_empty he, binarySearch_empty he']
      rfl
  obtain ⟨bsr, hbsr, hf⟩ := binarySearch_found (hs he) b
  filter_upwards [hret, hbsr] with n hn hb
  rw [rangeSearch] at hn ⊢
  split_ifs at hn ⊢
  · exact hn
  · rw [binarySearch_auxFile, hb] at hn
    rw [hb]
    simp only [hf.file_eq, Option.bind_eq_bind, Option.bind_some, if_neg hf.location_ne, rangeSearchStart]
      at hn ⊢
    split_ifs at hn ⊢ with hcur
    · have hmem : bsr.sir ∈ si.indexFile := by
        cases hf with
        | cur i hi _ _ sir => exact sir ▸ List.getElem_mem hi
        | first _ location => rw [location] at hcur; cases hcur
        | prev _ _ location => rw [location] at hcur; cases hcur
        | next _ _ location => rw [location] at hcur; cases hcur
      obtain ⟨start, hstart, hfrom⟩ := Option.bind_eq_some_iff.1 hn
      obtain ⟨records, hrecords, rfl⟩ := Option.map_eq_some_iff.1 hstart
      have hrecords' : si.getAllRawCurrentRecords n bsr.sir [] = some records := hrecords
      rw [hrecords', Option.map_some, Option.bind_some, ← h.rangeSearchFrom aux n records hmem]
      exact hfrom
    · obtain ⟨x, hmem, hx⟩ := h.searchAuxFile hf hcur
      simp only [hx, Option.bind_some, h.rangeSearchFrom aux n [] hmem] at hn ⊢
      exact hn

omit [KeyType κ] in
/-- Numbered records are linked within the first file. -/
theorem Renumbered.nextFile : ∀ {l : List (SequentialIndexRecord κ)} {n : Nat}, Renumbered n l →
    ∀ r ∈ l, r.nextFile = .indexFile
  | x :: l, n, h, r, hr => by
    rcases List.mem_cons.1 hr with rfl | hr
    · have hlink := h.2.1
      split_ifs at hlink
      · exact (Prod.mk.inj hlink).2
      · exact (Prod.mk.inj hlink).2
    · exact h.2.2.nextFile r hr

/-- An index file in physical and in key order, to whose first record the header leads: its records
are the chain, and the queries answer with what they hold, whatever is in the overflow file. -/
theorem queries_of_renumbered (hheader : si.header.link =
      if si.indexFile.isEmpty then endLink else (indexLayout.pos 0, .indexFile))
    (hnum : Renumbered 0 si.indexFile) (hsort : SortedBy (·.data) si.indexFile)
    (hm : si.Contents si.indexFile m) :
    si.Chain si.indexFile ∧ (∀ k, Returns (si.search · k) (m.values k)) ∧
      ∀ b e, Returns (si.rangeSearch · b e) (m.between b e) := by
  let si0 : SequentialIndex κ := { si with auxFile := [] }
  have hwf : si0.WellFormed si0.indexFile := .of_renumbered hheader rfl hnum hsort hm
  have hm0 : si0.Contents si0.indexFile m := hm
  have hflat : si.Flat := by
    refine ⟨?_, hnum.nextFile⟩
    split_ifs at hheader
    · exact (Prod.mk.inj hheader).2
    · exact (Prod.mk.inj hheader).2
  have hs : si.indexFile ≠ [] → si.Searchable := fun hne =>
    have h := hwf.linked.searchable hne
    ⟨h.nonempty, h.sorted, h.own⟩
  refine ⟨?_, fun k => search_of_flat hflat hs [] (search_returns hwf.linked hm0 k),
    fun b e => rangeSearch_of_flat hflat hs [] (rangeSearch_returns hwf.linked hm0 b e)⟩
  refine Path.congr hwf.chain fun l r hr hread => ?_
  obtain ⟨pos, f⟩ := l
  rcases file_of_readLink hread with hf | hf <;> cases hf
  · exact hread
  · exact absurd hread Layout.read_nil

/-! ## `bulk_insert` -/

/-- The positions of a key in a batch. -/
def positionsOf (records : List (κ × Int)) (k : κ) : List Int :=
  (records.filter (·.1 = k)).map (·.2)

/-- After a batch in key order on an index file without records. -/
theorem bulkLoad_loaded (h : si.indexFile = []) (hne : records ≠ [])
    (hsorted : records.Pairwise fun a b => a.1 ≤ b.1) :
    ∃ s : BulkState κ, si.bulkLoad records = s.si ∧ Loaded si records s := by
  cases records with
  | nil => exact absurd rfl hne
  | cons record records =>
    exact ⟨_, rfl, (loaded_first h record).foldl hsorted⟩

/-- `bulk_insert` on an empty index. -/
theorem bulkInsert_holds (h : si.indexFile = []) (haux : si.auxFile = []) (hne : records ≠ [])
    {sort : List (κ × Int) → List (κ × Int)} (hperm : (sort records).Perm records)
    (hsorted : (sort records).Pairwise fun a b => a.1 ≤ b.1) :
    ∃ res si', si.bulkInsert sort records = (.ok res, si') ∧ si'.Holds records := by
  let si1 := si.writeHeader .index ⟨sequentialHeaderSize, .indexFile⟩
  have hne' : sort records ≠ [] := fun he => hne (by simpa [he] using hperm.symm)
  obtain ⟨s, hload, hs⟩ := bulkLoad_loaded (show si1.indexFile = [] from h) hne' hsorted
  obtain ⟨pre, hfile⟩ := hs.file
  obtain ⟨m, hm, hpairs⟩ := hs.holds
  have hheader : s.si.header.link =
      if s.si.indexFile.isEmpty then endLink else (indexLayout.pos 0, .indexFile) := by
    have hlink : s.si.header.link = (indexLayout.pos 0, .indexFile) :=
      congrArg (·.header.link) hs.frame
    rw [hlink, hfile, if_neg (by simp)]
  have hempty : s.si.auxFile = [] := by
    rw [hs.frame]
    exact haux
  refine ⟨_, s.si, by rw [bulkInsert, if_neg hne, if_pos h, ← hload], s.si.indexFile, m, ?_, hm,
    hpairs.trans hperm⟩
  exact .of_renumbered hheader hempty hs.numbered hs.sorted hm

/-- `bulk_insert` on an index file that has only a header, for every batch and every way to sort it
by its keys. The index file gets the keys of the batch in strictly increasing order, and its records
are the chain from the header to the end (without any pair the header stays as it is). Each record
and its duplicates have the positions of its key, and so have the answers of the queries. -/
theorem bulkInsert_loads (h : si.indexFile = []) {sort : List (κ × Int) → List (κ × Int)}
    (hperm : (sort records).Perm records)
    (hsorted : (sort records).Pairwise fun a b => a.1 ≤ b.1) :
    ∃ res si', si.bulkInsert sort records = (.ok res, si') ∧
      SortedBy (·.data) si'.indexFile ∧
      (∀ k, k ∈ si'.indexFile.map (·.data) ↔ k ∈ records.map (·.1)) ∧
      ((records = [] → si.header.link = endLink) → si'.Chain si'.indexFile) ∧
      (∀ r ∈ si'.indexFile, ∃ dups, DupChain duplicatesLayout si'.duplicatesFile r.dupPos dups ∧
        (r.rawPos :: dups.map (·.rawPos)).Perm (positionsOf records r.data)) ∧
      ∃ positions : κ → List Int,
        (∀ k, Returns (si'.search · k) (positions k) ∧ (positions k).Perm (positionsOf records k)) ∧
        ∀ b e, Returns (si'.rangeSearch · b e)
          (((si'.indexFile.map (·.data)).filter fun k => b ≤ k ∧ k ≤ e).flatMap positions) := by
  by_cases hne : records = []
  · subst hne
    refine ⟨([], []), si, by rw [bulkInsert, if_pos rfl], by simp [h, SortedBy], by simp [h],
      fun hheader => ?_, by simp [h], fun _ => [], fun k => ⟨search_empty h k, .refl _⟩,
      fun b e => .of_eq fun n => ?_⟩
    · rw [h]
      exact Path.nil_iff.2 (hheader rfl)
    · rw [rangeSearch, binarySearch_empty h, h]
      split_ifs
      · rfl
      · rfl
  let si1 := si.writeHeader .index ⟨sequentialHeaderSize, .indexFile⟩
  have hne' : sort records ≠ [] := fun he => hne (by simpa [he] using hperm.symm)
  obtain ⟨s, hload, hs⟩ := bulkLoad_loaded (show si1.indexFile = [] from h) hne' hsorted
  obtain ⟨pre, hfile⟩ := hs.file
  obtain ⟨m, hm, hpairs⟩ := hs.holds
  have hvalues : ∀ k, (m.values k).Perm (positionsOf records k) := fun k => by
    rw [Multimap.values_eq_pairs]
    exact ((hpairs.trans hperm).filter _).map _
  have hheader : s.si.header = ⟨sequentialHeaderSize, .indexFile⟩ := by
    rw [hs.frame]
    rfl
  obtain ⟨hchain, hsearch, hrange⟩ := queries_of_renumbered (by rw [hheader, hfile]; simp; rfl)
    hs.numbered hs.sorted hm
  have hkeys := hm.keys_eq key_of_recordHolds
  refine ⟨_, s.si, by rw [bulkInsert, if_neg hne, if_pos h, ← hload], hs.sorted, fun k => ?_,
    fun _ => hchain, fun r hr => ?_, m.values, fun k => ⟨hsearch k, hvalues k⟩, fun b e => ?_⟩
  · rw [List.mem_map, hm.stored_iff, List.mem_map]
    constructor
    · rintro ⟨v, hv⟩
      exact ⟨(k, v), (hpairs.trans hperm).subset hv, rfl⟩
    · rintro ⟨⟨_, v⟩, hv, rfl⟩
      exact ⟨v, (hpairs.trans hperm).symm.subset hv⟩
  · obtain ⟨e, ⟨hkey, hfirst, dups, hd, hrest⟩, hv⟩ :=
      Multimap.Represented.values_of_mem key_of_recordHolds hm hr
    refine ⟨dups, hd, ?_⟩
    have hperm' := hvalues r.data
    rw [hm.values_eq_of_dupChain hr hd] at hperm'
    exact hperm'
  · rw [← hkeys, ← Multimap.between_eq_flatMap_keys]
    exact hrange b e

/-- A batch with a key that occurs twice. -/
theorem bulkInsert_loads_sample : ∃ res, ∃ si' : SequentialIndex Int,
    (createFile false).bulkInsert (·.mergeSort fun a b => a.1 ≤ b.1) [(5, 1), (3, 2), (5, 3)] =
      (.ok res, si') ∧ ∃ found, Returns (si'.search · 5) found ∧ found.Perm [1, 3] := by
  let sort : List (Int × Int) → List (Int × Int) := (·.mergeSort fun a b => a.1 ≤ b.1)
  have hsorted : ∀ l, (sort l).Pairwise fun a b => a.1 ≤ b.1 := fun l =>
    (List.pairwise_mergeSort (by simpa using fun a b c => Int.le_trans)
      (by simpa using Int.le_total) l).imp of_decide_eq_true
  obtain ⟨res, si', heq, -, -, -, -, positions, hsearch, -⟩ := bulkInsert_loads
    (rfl : (createFile false : SequentialIndex Int).indexFile = []) (List.mergeSort_perm _ _)
    (hsorted [(5, 1), (3, 2), (5, 3)])
  exact ⟨res, si', heq, positions 5, (hsearch 5).1, (hsearch 5).2⟩

/-! ## The flags -/

/-- `search` of the key has the position among its answers. -/
def Finds (si : SequentialIndex κ) (k : κ) (v : Int) : Prop :=
  ∃ res, Returns (si.search · k) res ∧ v ∈ res

/-- `search` of the key has the position among its answers, and more often than before. -/
def FindsAnew (si si' : SequentialIndex κ) (k : κ) (v : Int) : Prop :=
  ∃ after, Returns (si'.search · k) after ∧ v ∈ after ∧
    ∀ before, Returns (si.search · k) before → before.count v < after.count v

/-- What `bulk_insert` should report: a flag for each pair of the batch, in the order given, which is
set exactly when the batch has made `search` find the pair. What was found before is found after, and
so is what the chain of the index held. -/
def ReportsLoaded (si : SequentialIndex κ) (sort : List (κ × Int) → List (κ × Int))
    (records : List (κ × Int)) : Prop :=
  ∃ positions flags si', si.bulkInsert sort records = (.ok (positions, flags), si') ∧
    flags.length = records.length ∧
    (∀ i (hi : i < records.length),
      flags[i]? = some true ↔ FindsAnew si si' records[i].1 records[i].2) ∧
    (∀ k v, si.Finds k v → si'.Finds k v) ∧
    ∀ c m, si.Linked c → si.Contents c m → ∀ p ∈ m.pairs, si'.Finds p.1 p.2

/-- `bulk_insert` comes back with flags that are not set. -/
theorem bulkInsert_flags (si : SequentialIndex κ) (sort : List (κ × Int) → List (κ × Int))
    (records : List (κ × Int)) : ∃ positions si',
      si.bulkInsert sort records = (.ok (positions, List.replicate records.length false), si') ∧
        (records = [] ∨ si.indexFile ≠ [] → si' = si) := by
  by_cases hne : records = []
  · exact ⟨[], si, by rw [bulkInsert, if_pos hne, hne]; rfl, fun _ => rfl⟩
  · by_cases hfile : si.indexFile = []
    · exact ⟨_, _, by rw [bulkInsert, if_neg hne, if_pos hfile],
        fun h => absurd hfile (h.resolve_left hne)⟩
    · exact ⟨[], si, by rw [bulkInsert, if_neg hne, if_neg hfile], fun _ => rfl⟩

/-- No index finds more than it does itself. -/
theorem not_findsAnew_self {k : κ} {v : Int} : ¬ FindsAnew si si k v := by
  rintro ⟨after, hafter, -, hmore⟩
  exact lt_irrefl _ (hmore after hafter)

/-- What the chain of an index holds is found. -/
theorem Linked.finds {c : List (SequentialIndexRecord κ)} {m : Multimap κ Int} (h : si.Linked c)
    (hm : si.Contents c m) {p : κ × Int} (hp : p ∈ m.pairs) : si.Finds p.1 p.2 := by
  refine ⟨m.values p.1, search_returns h hm p.1, ?_⟩
  rw [Multimap.values_eq_pairs, List.mem_map]
  exact ⟨p, List.mem_filter.2 ⟨hp, decide_eq_true rfl⟩, rfl⟩

/-- A batch that is loaded: its first pair is found after the call, and its flag is not set. -/
theorem not_reportsLoaded (sort : List (κ × Int) → List (κ × Int))
    (hperm : (sort records).Perm records)
    (hsorted : (sort records).Pairwise fun a b => a.1 ≤ b.1) (hne : records ≠ [])
    (hfile : si.indexFile = []) : ¬ si.ReportsLoaded sort records := by
  rintro ⟨positions, flags, si', heq, -, hflags, -⟩
  obtain ⟨positions', si1, heq', -⟩ := si.bulkInsert_flags sort records
  obtain ⟨res, si2, hload, -, -, -, -, found, hfound, -⟩ := bulkInsert_loads hfile hperm hsorted
  obtain rfl : si' = si2 := congrArg Prod.snd (heq.symm.trans hload)
  obtain ⟨⟨-, rfl⟩, -⟩ : (positions = positions' ∧ flags = List.replicate records.length false) ∧
      si' = si1 := by simpa [heq] using heq'
  obtain ⟨p, rest, rfl⟩ := List.exists_cons_of_ne_nil hne
  have hmem : p.2 ∈ found p.1 := by
    rw [(hfound p.1).2.mem_iff]
    exact List.mem_map.2 ⟨p, List.mem_filter.2 ⟨.head _, decide_eq_true rfl⟩, rfl⟩
  have hanew : FindsAnew si si' p.1 p.2 := by
    refine ⟨found p.1, (hfound p.1).1, hmem, fun before hbefore => ?_⟩
    rw [hbefore.unique (search_empty hfile p.1), List.count_nil]
    exact List.count_pos_iff.2 hmem
  exact absurd ((hflags 0 (Nat.zero_lt_succ _)).2 hanew) (by simp)

/-- For every index and every batch. The flags are never set, so they are right exactly where nothing
is loaded. -/
theorem bulkInsert_reports_iff (sort : List (κ × Int) → List (κ × Int))
    (hperm : (sort records).Perm records)
    (hsorted : (sort records).Pairwise fun a b => a.1 ≤ b.1) :
    si.ReportsLoaded sort records ↔ records = [] ∨ si.indexFile ≠ [] := by
  constructor
  · intro h
    by_contra hcon
    obtain ⟨hne, hfile⟩ := not_or.1 hcon
    exact not_reportsLoaded sort hperm hsorted hne (not_not.1 hfile) h
  · intro h
    obtain ⟨positions, si', heq, hsame⟩ := si.bulkInsert_flags sort records
    obtain rfl := hsame h
    refine ⟨positions, _, si', heq, List.length_replicate, fun i hi => ?_, fun k v hf => hf,
      fun c m hc hm p hp => hc.finds hm hp⟩
    rw [List.getElem?_replicate_of_lt hi]
    exact ⟨nofun, fun hf => absurd hf not_findsAnew_self⟩

/-- An index that has records. -/
theorem bulkInsert_reports_iff_sample : sampleIndex.ReportsLoaded id [(5, 1), (7, 3)] :=
  (bulkInsert_reports_iff id (.refl _) (by decide)).2 (.inr (by decide))

/-- A pair is loaded into a new index, and its flag is not set. -/
theorem not_bulkInsert_reports : ∃ si' : SequentialIndex Int,
    (createFile false).bulkInsert id [(5, 1)] = (.ok ([1], [false]), si') ∧
      Returns (si'.search · 5) [1] ∧ ¬ (createFile false).ReportsLoaded id [((5 : Int), 1)] :=
  ⟨_, rfl, .of_add 3 fun _ => rfl,
    not_reportsLoaded id (.refl _) (by decide) (by decide) rfl⟩

end SequentialIndex

end Rdbms
