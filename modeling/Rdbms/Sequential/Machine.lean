import Rdbms.Sequential.Load
import Rdbms.Sequential.LoadRecords
import Rdbms.Sequential.Remove

/-!
# A sequential index is an ordered multimap

`answer` says what each public call of a `SequentialIndex` answers, and what it makes of a multimap
from keys to positions. The files of an index are well formed and hold this multimap after every run
of the calls that start from a new index, and the index gives these answers
(`replies_of_run`), as long as no call works at the overflow chain of the header (`Allowed`).
-/

namespace Rdbms

/-- The public calls of a `SequentialIndex`. -/
inductive SequentialCall (κ : Type)
  | add (data : κ) (rawPos : Int)
  | addNotRebuild (data : κ) (rawPos : Int)
  | loadRecords (records : List (κ × Int))
  | bulkInsert (records : List (κ × Int))
  | remove (data : κ)
  | rebuild
  | search (data : κ)
  | rangeSearch (first last : κ)

/-- A response, with the flags of `bulk_insert`. -/
abbrev SequentialReply := Except Exn (List Int × List Bool)

namespace SequentialIndex
variable {κ : Type} [KeyType κ]

/-- A public call; `sort` is `std::sort` with the comparison by key. -/
def call (sort : List (κ × Int) → List (κ × Int)) (si : SequentialIndex κ) (fuel : Nat) :
    SequentialCall κ → Option (SequentialReply × SequentialIndex κ)
  | .add data rawPos => (si.add fuel data rawPos).map fun (res, si) => (res.map (·, []), si)
  | .addNotRebuild data rawPos =>
    (si.addNotRebuild fuel data rawPos).map fun (res, si) => (res.map (·, []), si)
  | .loadRecords records =>
    (si.loadRecords fuel records).map fun (res, si) => (res.map (·, []), si)
  | .bulkInsert records => some (si.bulkInsert sort records)
  | .remove data => (si.remove fuel data).map fun (records, si) => (.ok (records, []), si)
  | .rebuild => (si.rebuild fuel).map (.ok ([], []), ·)
  | .search data => (si.search fuel data).map fun records => (.ok (records, []), si)
  | .rangeSearch first last =>
    (si.rangeSearch fuel first last).map fun records => (.ok (records, []), si)

/-- What a call answers on an index with the positions of `m`, and the positions after it. -/
def answer (sort : List (κ × Int) → List (κ × Int)) (pk : Bool) (m : Multimap κ Int) :
    SequentialCall κ → SequentialReply × Multimap κ Int
  | .add data rawPos =>
    if pk = true ∧ data ∈ m.keys then (.error (.runtimeError "Couldn't add"), m)
    -- the first record of an index is reported twice
    else (.ok (if m.keys = [] then [rawPos, rawPos] else [rawPos], []), m.insert data rawPos)
  | .addNotRebuild data rawPos =>
    if pk = true ∧ data ∈ m.keys then (.error (.runtimeError "Couldn't add not rebuild"), m)
    else (.ok (if m.keys = [] then [rawPos, rawPos] else [rawPos], []), m.insert data rawPos)
  | .loadRecords records =>
    let (all, m) := m.insertAll pk records
    (if all then .ok ([], []) else .error (.runtimeError "Couldn't load records"), m)
  | .bulkInsert records =>
    if records = [] then (.ok ([], []), m)
    -- only an index without records is loaded, and nothing looks for equal keys
    else if m.keys = [] then
      (.ok ((sort records).map (·.2), List.replicate records.length false),
        ((sort records).foldl (fun m p => m.insert p.1 p.2) m))
    else (.ok ([], List.replicate records.length false), m)
  | .remove data => (.ok ((m.values data).take 1, []), m.erase data)
  | .rebuild => (.ok ([], []), m)
  | .search data => (.ok (m.values data, []), m)
  | .rangeSearch first last => (.ok (m.between first last, []), m)

/-- The call does not insert in front of the overflow chain of the header and does not remove from
it. -/
def Allowed (si : SequentialIndex κ) : SequentialCall κ → Prop
  | .add data _ => ¬ si.HeaderMisplaced data
  | .addNotRebuild data _ => ¬ si.HeaderMisplaced data
  | .loadRecords records => si.Placed records
  | .remove data => ¬ si.InHeaderChain data
  | _ => True

/-- The answers to a sequence of calls on a new index, and the positions after it. -/
def answers (sort : List (κ × Int) → List (κ × Int)) (pk : Bool) (calls : List (SequentialCall κ)) :
    List SequentialReply × Multimap κ Int :=
  calls.foldl (fun (replies, m) c =>
    let (reply, m) := answer sort pk m c
    (replies ++ [reply], m)) ([], Multimap.empty)

/-- A run of allowed calls on a new index: the calls, their replies and the index after them. -/
inductive CallRun (sort : List (κ × Int) → List (κ × Int)) (pk : Bool) :
    List (SequentialCall κ) → List SequentialReply → SequentialIndex κ → Prop
  | start : CallRun sort pk [] [] (createFile pk)
  | call {calls : List (SequentialCall κ)} {replies : List SequentialReply}
      {si si' : SequentialIndex κ} {c : SequentialCall κ} {reply : SequentialReply} :
      CallRun sort pk calls replies si → si.Allowed c → Returns (si.call sort · c) (reply, si') →
      CallRun sort pk (calls ++ [c]) (replies ++ [reply]) si'

variable {si si' : SequentialIndex κ} {c : List (SequentialIndexRecord κ)} {m : Multimap κ Int}
  {k : κ} {v : Int} {log records : List (κ × Int)} {s : BulkState κ} {record : κ × Int}
  {sort : List (κ × Int) → List (κ × Int)} {pk : Bool}

/-! ## `bulk_insert` -/

/-- The loop inserts its pairs. -/
theorem Loaded.foldl_contents : ∀ {records log : List (κ × Int)} {s : BulkState κ}
    {m : Multimap κ Int}, Loaded si log s → s.si.Contents s.si.indexFile m →
    (log ++ records).Pairwise (fun a b => a.1 ≤ b.1) →
    (records.foldl bulkNext s).si.Contents (records.foldl bulkNext s).si.indexFile
      (records.foldl (fun m p => m.insert p.1 p.2) m)
  | [], _, _, _, _, hm, _ => hm
  | record :: records, log, s, m, h, hm, hsorted => by
    have hle : s.sirPrev.data ≤ record.1 := by
      obtain ⟨p, hp, hpk⟩ := h.last
      rw [← hpk]
      exact (List.pairwise_append.1 hsorted).2.2 p hp record (.head _)
    rw [List.append_cons] at hsorted
    have hnext : Loaded si (log ++ [record]) ([record].foldl bulkNext s) :=
      h.foldl (List.pairwise_append.1 hsorted).1
    exact hnext.foldl_contents (h.contents hm hle) hsorted

/-- `bulk_insert` on an index without records. -/
theorem WellFormed.bulkInsert_eq (h : si.WellFormed []) (hne : records ≠ [])
    (hperm : (sort records).Perm records)
    (hsorted : (sort records).Pairwise fun a b => a.1 ≤ b.1) :
    ∃ si' c', si.bulkInsert sort records =
        (.ok ((sort records).map (·.2), List.replicate records.length false), si') ∧
      si'.pk = si.pk ∧ si'.WellFormed c' ∧
      si'.Contents c' ((sort records).foldl (fun m p => m.insert p.1 p.2) Multimap.empty) := by
  have hempty : si.indexFile = [] := by rw [← h.index]; rfl
  let si1 := si.writeHeader .index ⟨sequentialHeaderSize, .indexFile⟩
  have hempty1 : si1.indexFile = [] := hempty
  obtain ⟨record, rest, hsort⟩ := List.exists_cons_of_ne_nil fun he : sort records = [] =>
    hne (by simpa [he] using hperm.symm)
  rw [hsort] at hsorted
  have hfirst := loaded_first hempty1 record
  have hs := hfirst.foldl hsorted
  have hm := hfirst.foldl_contents (bulkFirst_contents hempty1 record) hsorted
  generalize hstate : rest.foldl bulkNext (si1.bulkFirst record) = s at hs hm
  obtain ⟨pre, hfile⟩ := hs.file
  have hheader : s.si.header.link =
      if s.si.indexFile.isEmpty then endLink else (indexLayout.pos 0, .indexFile) := by
    have hlink : s.si.header.link = (indexLayout.pos 0, .indexFile) :=
      congrArg (·.header.link) hs.frame
    rw [hlink, hfile, if_neg (by simp)]
  have haux : s.si.auxFile = [] := by
    rw [hs.frame]
    exact h.auxEmpty hempty
  refine ⟨s.si, s.si.indexFile, ?_, by rw [hs.frame]; rfl,
    .of_renumbered hheader haux hs.numbered hs.sorted hm, ?_⟩
  · rw [bulkInsert, if_neg hne, if_pos hempty, hsort, ← hstate]
    rfl
  · rw [hsort]
    exact hm

/-! ## `remove` -/

/-- Records with the same keys and positions hold the same. -/
theorem Contents.of_records {c' : List (SequentialIndexRecord κ)} (h : si.Contents c m)
    (hrecords : c'.map (·.toRecord) = c.map (·.toRecord))
    (hdups : si'.duplicatesFile = si.duplicatesFile) : si'.Contents c' m := by
  rw [Contents, Multimap.Represented] at *
  generalize m.entries = E at h ⊢
  induction h generalizing c' with
  | nil =>
    rw [List.map_nil, List.map_eq_nil_iff] at hrecords
    rw [hrecords]
    exact .nil
  | cons he _ ih =>
    obtain ⟨r', rest, rfl, hr, hrest⟩ := List.map_eq_cons_iff.1 hrecords
    exact .cons (recordHolds_of_eq hr hdups he) (ih hrest)

/-- A header written leaves the flag. -/
theorem pk_writeHeader {file : Stream} {header : SequentialIndexHeader} :
    (si.writeHeader file header).pk = si.pk := by
  unfold writeHeader
  split_ifs
  · split <;> rfl
  · rfl

omit [KeyType κ] in
/-- Writing a record across does not change the kind of the index. -/
theorem pk_writeAcross {across : Option (SequentialIndexHeader × Option (SequentialIndexRecord κ))} :
    (si.writeAcross across).pk = si.pk := by
  obtain _ | ⟨link, _ | sir⟩ := across <;> rfl

/-- The walk through an overflow chain writes records only. -/
theorem pk_of_eraseAux {fuel : Nat} {file : Stream}
    {start : SequentialIndexRecord κ × SequentialIndexRecord κ × Stream}
    {out : List Int × SequentialIndex κ} (h : loop (si.eraseAuxBody file k) fuel start = some out) :
    out.2.pk = si.pk := by
  refine loop_of_inv (I := fun _ => True) (Q := fun out => out.2.pk = si.pk) (fun _ _ _ _ => trivial)
    ?_ trivial h
  rintro ⟨sirPrev, sirCur, auxFile⟩ out' - hbody
  rw [eraseAuxBody] at hbody
  by_cases hdata : sirCur.data = k
  · rw [if_pos hdata] at hbody
    split_ifs at hbody
    · rw [← Sum.inr.inj (Option.some.inj hbody)]
      exact pk_moveWriteRecord.trans pk_moveWriteRecord
    · rw [← Sum.inr.inj (Option.some.inj hbody)]
      exact pk_moveWriteRecord.trans pk_moveWriteRecord
  · rw [if_neg hdata] at hbody
    split_ifs at hbody
    · cases hbody
      rfl
    · cases hbody

/-- The removal of a record of the index file writes records and the header. -/
theorem pk_of_eraseCur {fuel : Nat} {bsr : BinarySearchResponse κ}
    {out : List Int × SequentialIndex κ} (h : si.eraseCur fuel bsr = some out) :
    out.2.pk = si.pk := by
  simp only [eraseCur] at h
  split_ifs at h
  · cases h
    rw [pk_moveWriteRecord, pk_writeHeader]
  · obtain ⟨_, -, rfl⟩ := Option.map_eq_some_iff.1 h
    exact pk_moveWriteRecord
  · cases h
    rw [pk_moveWriteRecord, pk_moveWriteRecord]
  · obtain ⟨_, -, rfl⟩ := Option.map_eq_some_iff.1 h
    rw [pk_moveWriteRecord, pk_moveWriteRecord]

/-- In the overflow chain of the header too. -/
theorem pk_of_eraseHeader {fuel : Nat} {file : Stream} {first : Int}
    {out : List Int × SequentialIndex κ} (h : si.eraseHeader fuel file k first = some out) : out.2.pk = si.pk := by
  simp only [eraseHeader] at h
  generalize (if file.good = true then si.readAcross first else none) = across at h
  split_ifs at h
  · cases h
    exact pk_writeAcross
  · cases h
    rfl
  · exact pk_of_eraseAux h

/-- `erase` keeps the flag. -/
theorem pk_of_erase {fuel : Nat} {out : List Int × SequentialIndex κ}
    (h : si.erase fuel k = some out) : out.2.pk = si.pk := by
  obtain ⟨bsr, -, h⟩ := Option.bind_eq_some_iff.1 h
  unfold eraseAt at h
  split at h
  · cases h
    rfl
  · exact pk_of_eraseCur h
  · split_ifs at h
    · cases h
      rfl
    · exact pk_of_eraseHeader h
    · exact pk_of_eraseAux h
    · exact pk_of_eraseAux h

/-- The first value of a key. -/
theorem Contents.take_values (hm : si.Contents c m) {r : SequentialIndexRecord κ} (hr : r ∈ c) :
    (m.values r.data).take 1 = [r.rawPos] := by
  obtain ⟨e, he, hvalues⟩ := Multimap.Represented.values_of_mem key_of_recordHolds hm hr
  rw [hvalues]
  show [e.first] = _
  rw [← he.2.1]
  rfl

/-- `remove` of a key whose place is not in the overflow chain of the header. -/
theorem WellFormed.remove_returns (h : si.WellFormed c) (hm : si.Contents c m)
    (hk : ¬ si.InHeaderChain k) : ∃ si' c', Returns (si.remove · k) ((m.values k).take 1, si') ∧
      si'.pk = si.pk ∧ si'.WellFormed c' ∧ si'.Contents c' (m.erase k) := by
  obtain ⟨out, hret, hout⟩ := h.erase_returns (k := k) fun hin => absurd hin hk
  have hpk : out.2.pk = si.pk := by
    obtain ⟨fuel, hfuel⟩ := hret.exists
    exact pk_of_erase hfuel
  cases hout with
  | @found c1 c2 c' r si1 heq data chain records duplicates =>
    subst heq data
    have hm0 : si.Contents (c1 ++ c2) (m.erase r.data) :=
      Multimap.Represented.erase key_of_recordHolds hm rfl
    have hm1 : si1.Contents c' (m.erase r.data) := hm0.of_records records duplicates
    have hsort : SortedBy (·.data) c' := by
      have hkeys := congrArg (List.map (·.data)) records
      rw [List.map_map, List.map_map] at hkeys
      refine SortedBy.congr_map hkeys (List.Pairwise.sublist ?_ h.sorted)
      exact (List.Sublist.refl c1).append (List.sublist_cons_self r c2)
    obtain ⟨si2, hrebuild, hpk', hwf, hm2, -⟩ := rebuild_wellFormed chain hsort hm1
    refine ⟨si2, si2.indexFile, ?_, hpk'.trans hpk, hwf, hm2⟩
    rw [hm.take_values (by simp)]
    exact remove_of_found hret hrebuild
  | absent hne =>
    have hkey : k ∉ m.keys := fun hk => by
      obtain ⟨r, hr, hrk⟩ := hm.mem_keys_iff.1 hk
      exact hne r hr hrk
    refine ⟨si, c, ?_, rfl, h, by rwa [Multimap.erase_of_not_mem hkey]⟩
    rw [Multimap.values_eq_nil_iff.2 hkey]
    exact remove_of_absent hret

/-! ## Every call -/

/-- What `std::sort` with the comparison by key does to a batch. -/
structure SortsByKey (sort : List (κ × Int) → List (κ × Int)) : Prop where
  perm : ∀ records, (sort records).Perm records
  sorted : ∀ records, (sort records).Pairwise fun a b => a.1 ≤ b.1

/-- After a call: the reply, and a well-formed index with the positions. -/
def Answered (sort : List (κ × Int) → List (κ × Int)) (si : SequentialIndex κ)
    (call : SequentialCall κ) (out : SequentialReply × Multimap κ Int) : Prop :=
  ∃ si' c', Returns (si.call sort · call) (out.1, si') ∧ si'.pk = si.pk ∧ si'.WellFormed c' ∧
    si'.Contents c' out.2

/-- `add`, and `addNotRebuild` in the same way. -/
theorem WellFormed.add_answered (h : si.WellFormed c) (hm : si.Contents c m)
    (hplace : ¬ si.HeaderMisplaced k) (v : Int) :
    Answered sort si (.add k v) (answer sort si.pk m (.add k v)) := by
  rcases h.add_cases hm v hplace true with ⟨hk, hret⟩ | ⟨hk, si', c', hret, hpk, h', hm'⟩
  · rw [answer, if_pos hk]
    exact ⟨si, c, hret.map _, rfl, h, hm⟩
  · rw [answer, if_neg hk]
    exact ⟨si', c', hret.map _, hpk, h', hm'⟩

/-- `addNotRebuild` gives the answer of the map. -/
theorem WellFormed.addNotRebuild_answered (h : si.WellFormed c) (hm : si.Contents c m)
    (hplace : ¬ si.HeaderMisplaced k) (v : Int) :
    Answered sort si (.addNotRebuild k v) (answer sort si.pk m (.addNotRebuild k v)) := by
  rcases h.add_cases hm v hplace false with ⟨hk, hret⟩ | ⟨hk, si', c', hret, hpk, h', hm'⟩
  · have hret' : Returns (si.addNotRebuild · k v)
      (.error (.runtimeError "Couldn't add not rebuild"), si) := hret.map _
    rw [answer, if_pos hk]
    exact ⟨si, c, hret'.map _, rfl, h, hm⟩
  · have hret' : Returns (si.addNotRebuild · k v)
      (.ok (if m.keys = [] then [v, v] else [v]), si') := hret.map _
    rw [answer, if_neg hk]
    exact ⟨si', c', hret'.map _, hpk, h', hm'⟩

/-- `load_records` gives the answer of the map. -/
theorem WellFormed.loadRecords_answered (h : si.WellFormed c) (hm : si.Contents c m)
    (hplaced : si.Placed records) :
    Answered sort si (.loadRecords records) (answer sort si.pk m (.loadRecords records)) := by
  obtain ⟨si', c', hret, hpk, h', hm'⟩ := h.loadRecords_returns hm hplaced
  refine ⟨si', c', ?_, hpk, h', hm'⟩
  by_cases hall : (m.insertAll si.pk records).1 = true
  · rw [if_pos hall] at hret
    simp only [answer, if_pos hall]
    exact hret.map _
  · rw [if_neg hall] at hret
    simp only [answer, if_neg hall]
    exact hret.map _

/-- `bulk_insert` gives the answer of the map. -/
theorem WellFormed.bulkInsert_answered (hsort : SortsByKey sort) (h : si.WellFormed c)
    (hm : si.Contents c m) :
    Answered sort si (.bulkInsert records) (answer sort si.pk m (.bulkInsert records)) := by
  by_cases hne : records = []
  · refine ⟨si, c, .of_eq fun _ => ?_, rfl, h, ?_⟩
    · rw [call, bulkInsert, if_pos hne, answer, if_pos hne]
    · rwa [answer, if_pos hne]
  by_cases hkeys : m.keys = []
  · obtain rfl := hm.keys_eq_nil_iff.1 hkeys
    obtain ⟨si', c', heq, hpk, h', hm'⟩ := h.bulkInsert_eq hne (hsort.perm _) (hsort.sorted _)
    obtain rfl := Multimap.eq_empty_iff.2 hkeys
    refine ⟨si', c', .of_eq fun _ => ?_, hpk, h', ?_⟩
    · rw [call, heq, answer, if_neg hne, if_pos hkeys]
    · rwa [answer, if_neg hne, if_pos hkeys]
  · have hfile : si.indexFile ≠ [] := fun he => hkeys (hm.keys_eq_nil_iff.2 (h.linked.empty he))
    refine ⟨si, c, .of_eq fun _ => ?_, rfl, h, ?_⟩
    · rw [call, bulkInsert, if_neg hne, answer, if_neg hne, if_neg hkeys]
      simp only [if_neg hfile]
    · rwa [answer, if_neg hne, if_neg hkeys]

/-- An allowed call on a well-formed index answers as the multimap does. -/
theorem WellFormed.call_answered (hsort : SortsByKey sort) (h : si.WellFormed c)
    (hm : si.Contents c m) {call : SequentialCall κ} (hok : si.Allowed call) :
    Answered sort si call (answer sort si.pk m call) := by
  cases call with
  | add data rawPos => exact h.add_answered hm hok rawPos
  | addNotRebuild data rawPos => exact h.addNotRebuild_answered hm hok rawPos
  | loadRecords records => exact h.loadRecords_answered hm hok
  | bulkInsert records => exact h.bulkInsert_answered hsort hm
  | remove data =>
    obtain ⟨si', c', hret, hpk, h', hm'⟩ := h.remove_returns hm hok
    exact ⟨si', c', hret.map _, hpk, h', hm'⟩
  | rebuild =>
    obtain ⟨si', hret, hpk, h', hm', -⟩ := rebuild_wellFormed h.chain h.sorted hm
    exact ⟨si', si'.indexFile, hret.map _, hpk, h', hm'⟩
  | search data => exact ⟨si, c, (search_returns h.linked hm data).map _, rfl, h, hm⟩
  | rangeSearch first last =>
    exact ⟨si, c, (rangeSearch_returns h.linked hm first last).map _, rfl, h, hm⟩

/-! ## Runs -/

/-- The answer to the last call of a run. -/
theorem answers_append (calls : List (SequentialCall κ)) (c : SequentialCall κ) :
    answers sort pk (calls ++ [c]) =
      ((answers sort pk calls).1 ++ [(answer sort pk (answers sort pk calls).2 c).1],
        (answer sort pk (answers sort pk calls).2 c).2) := by
  rw [answers, List.foldl_append]
  rfl

/-- After a run of allowed calls the index holds what the multimap does, and it has given the same
answers. -/
theorem CallRun.holds (hsort : SortsByKey sort) {calls : List (SequentialCall κ)}
    {replies : List SequentialReply} (h : CallRun sort pk calls replies si) :
    replies = (answers sort pk calls).1 ∧ si.pk = pk ∧
      ∃ c, si.WellFormed c ∧ si.Contents c (answers sort pk calls).2 := by
  induction h with
  | start => exact ⟨rfl, rfl, [], wellFormed_createFile pk, .nil⟩
  | @call calls replies si si' c reply _ hok hret ih =>
    obtain ⟨hreplies, hpk, chain, hwf, hm⟩ := ih
    obtain ⟨si'', c', hret', hpk', hwf', hm'⟩ := hwf.call_answered hsort hm hok
    cases hret.unique hret'
    rw [hpk] at hm'
    rw [answers_append, hreplies, hpk]
    exact ⟨rfl, hpk'.trans hpk, c', hwf', hm'⟩

/-- Every run of the public calls on a new index, with or without `PK` and for every way to sort a
batch by its keys, whose insertions and removals are not at the overflow chain of the header, gives
the answers of the ordered multimap, and every further such call comes back. -/
theorem replies_of_run (hsort : SortsByKey sort) {calls : List (SequentialCall κ)}
    {replies : List SequentialReply} (h : CallRun sort pk calls replies si) :
    replies = (answers sort pk calls).1 ∧
      ∀ c, si.Allowed c → ∃ si', Returns (si.call sort · c)
        ((answer sort pk (answers sort pk calls).2 c).1, si') := by
  obtain ⟨hreplies, rfl, chain, hwf, hm⟩ := h.holds hsort
  refine ⟨hreplies, fun c hok => ?_⟩
  obtain ⟨si', c', hret, -⟩ := hwf.call_answered hsort hm hok
  exact ⟨si', hret⟩

/-- A stable sort. -/
theorem sortsByKey_mergeSort : SortsByKey fun records : List (κ × Int) =>
    records.mergeSort fun a b => a.1 ≤ b.1 where
  perm _ := List.mergeSort_perm _ _
  sorted records := by
    refine List.Pairwise.imp of_decide_eq_true (List.pairwise_mergeSort ?_ ?_ records)
    · exact fun a b c hab hbc => decide_eq_true ((of_decide_eq_true hab).trans (of_decide_eq_true hbc))
    · exact fun a b => by simpa using le_total a.1 b.1

/-- A primary key. -/
def oneKey : SequentialIndex Int :=
  ⟨true, ⟨24, .indexFile⟩, [⟨⟨5, 1, -1⟩, 24, .indexFile, -1, .indexFile⟩], [], []⟩

/-- A second one in the overflow file. -/
def twoKeys : SequentialIndex Int :=
  ⟨true, ⟨24, .indexFile⟩, [⟨⟨5, 1, -1⟩, 24, .indexFile, 0, .auxFile⟩],
    [⟨⟨7, 2, -1⟩, 0, .auxFile, -1, .indexFile⟩], []⟩

/-- Neither pair of the batch goes to the header. -/
theorem placed_oneKey : oneKey.Placed [(7, 2), (5, 9)] := by
  have h7 : Returns (oneKey.addNotRebuild · 7 2) (.ok [2], twoKeys) := .of_add 5 fun _ => rfl
  have h5 : Returns (twoKeys.addNotRebuild · 5 9)
      (.error (.runtimeError "Couldn't add not rebuild"), twoKeys) := .of_add 5 fun _ => rfl
  refine ⟨fun h => (by cases h.1), fun recs si' hret => ?_⟩
  cases hret.unique h7
  refine ⟨fun h => (by cases h.1), fun recs si' hret => ?_⟩
  cases hret.unique h5

/-- A batch of primary keys with one that is there already, and a removal. -/
theorem replies_of_run_sample : ∃ si : SequentialIndex Int, ∃ replies,
    CallRun (·.mergeSort fun a b => a.1 ≤ b.1) true
      [.add 5 1, .loadRecords [(7, 2), (5, 9)], .remove 5] replies si ∧
    replies = [.ok ([1, 1], []), .error (.runtimeError "Couldn't load records"), .ok ([1], [])] ∧
    ∃ si', Returns (si.call (·.mergeSort fun a b => a.1 ≤ b.1) · (.search 7)) (.ok ([2], []), si') := by
  have r1 : CallRun (·.mergeSort fun a b => a.1 ≤ b.1) true [.add 5 1] [.ok ([1, 1], [])] oneKey :=
    .call .start (fun h => by cases h.1) (.of_add 5 fun _ => rfl)
  have hload : Returns (oneKey.call (·.mergeSort fun a b => a.1 ≤ b.1) · (.loadRecords [(7, 2), (5, 9)]))
      (.error (.runtimeError "Couldn't load records"), twoKeys) := .of_add 5 fun _ => rfl
  have r2 := r1.call (c := .loadRecords [(7, 2), (5, 9)]) placed_oneKey hload
  have r3 := r2.call (c := .remove 5) (fun h => h.1 rfl) (.of_add 5 fun _ => rfl)
  obtain ⟨hreplies, hnext⟩ := replies_of_run sortsByKey_mergeSort r3
  exact ⟨_, _, r3, hreplies, hnext (.search 7) trivial⟩

end SequentialIndex

end Rdbms
