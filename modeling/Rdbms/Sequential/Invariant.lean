import Rdbms.Lib.Multimap
import Rdbms.Sequential.BinarySearch

/-!
# Well-formed sequential indexes

A pair `next_pos`, `next_file` is a link, and `readLink` is what it names. A state is `WellFormed`
with the chain `c` when the links lead from the header through `c` to the end, in strictly
increasing key order and through every record of the two files. `Contents` reads a multimap off the
chain: the key of each record with its positions, where the chain of duplicates hangs off the
record.

The records of the overflow file stand in runs between the records of the index file. The binary
search finds the gap in the index file where a key belongs, and `exists_gap` cuts the chain there:
what is below the key, the run of overflow records behind the gap, and what is above the key.
-/

namespace Rdbms

/-- A record's outgoing link. -/
def SequentialIndexRecord.link {κ : Type} (r : SequentialIndexRecord κ) : Int × FilePos :=
  (r.nextPos, r.nextFile)

/-- The link under which a record says that it stands. -/
def SequentialIndexRecord.loc {κ : Type} (r : SequentialIndexRecord κ) : Int × FilePos :=
  (r.currentPos, r.currentFile)

/-- The link to the first record of the chain. -/
def SequentialIndexHeader.link (h : SequentialIndexHeader) : Int × FilePos :=
  (h.nextPos, h.nextFile)

/-- The link behind the last record of the chain. -/
def endLink : Int × FilePos := (endOfFile, .indexFile)

/-- The stream of a `next_file`, as the program chooses it. -/
abbrev FilePos.stream (f : FilePos) : Stream := if f = .indexFile then .index else .aux

namespace SequentialIndex
variable {κ : Type}

/-- The record a link names. -/
def readLink (si : SequentialIndex κ) : Int × FilePos → Option (SequentialIndexRecord κ)
  | (pos, .indexFile) => indexLayout.read si.indexFile pos
  | (pos, .auxFile) => auxLayout.read si.auxFile pos
  | _ => none

/-- The chain of an index: from the header along the links to the end. -/
def Chain (si : SequentialIndex κ) (c : List (SequentialIndexRecord κ)) : Prop :=
  Path si.readLink (·.link) si.header.link c endLink

/-- A record and an entry with its key and its positions. -/
def RecordHolds (si : SequentialIndex κ) (r : SequentialIndexRecord κ) (e : Entry κ Int) : Prop :=
  r.data = e.key ∧ HasPositions duplicatesLayout si.duplicatesFile r e.first e.rest

variable {si : SequentialIndex κ} {c : List (SequentialIndexRecord κ)} {l l' : Int × FilePos}
  {r : SequentialIndexRecord κ}

/-! ## Links -/

/-- A link into the index file. -/
theorem readLink_index {pos : Int} :
    si.readLink (pos, .indexFile) = indexLayout.read si.indexFile pos := rfl

/-- A link into the overflow file. -/
theorem readLink_aux {pos : Int} :
    si.readLink (pos, .auxFile) = auxLayout.read si.auxFile pos := rfl

/-- A link that names a record is in the index file or in the overflow file. -/
theorem file_of_readLink (h : si.readLink l = some r) : l.2 = .indexFile ∨ l.2 = .auxFile := by
  obtain ⟨pos, f⟩ := l
  cases f with
  | indexFile => exact .inl rfl
  | auxFile => exact .inr rfl
  | dupFile => cases h
  | unset => cases h

/-- The end of the chain names no record. -/
theorem ne_endOfFile_of_readLink (h : si.readLink l = some r) : l.1 ≠ endOfFile := by
  obtain ⟨pos, f⟩ := l
  rcases file_of_readLink h with hf | hf <;> cases hf <;>
    exact Layout.ne_neg_one_of_read h

/-- The program reads what a link names from the stream of its file. -/
theorem moveReadRecord_of_readLink (h : si.readLink l = some r) (x : SequentialIndexRecord κ) :
    si.moveReadRecord l.2.stream l.1 x = (r, l.2.stream) := by
  obtain ⟨pos, f⟩ := l
  rcases file_of_readLink h with hf | hf <;> cases hf
  · have hread : Rdbms.moveReadRecord indexLayout si.indexFile true pos x = (r, true) :=
      moveReadRecord_of_read h
    simp only [FilePos.stream, if_true, moveReadRecord, hread]
  · have hread : Rdbms.moveReadRecord auxLayout si.auxFile true pos x = (r, true) :=
      moveReadRecord_of_read h
    simp only [FilePos.stream, if_neg (show FilePos.auxFile ≠ .indexFile by decide), moveReadRecord,
      hread]

/-- The read of a link into the index file. -/
theorem moveReadRecord_index_of_readLink (h : si.readLink l = some r) (hf : l.2 = .indexFile)
    (x : SequentialIndexRecord κ) : si.moveReadRecord .index l.1 x = (r, .index) := by
  have := moveReadRecord_of_readLink h x
  rwa [FilePos.stream, if_pos hf] at this

/-- The read of a link into the overflow file. -/
theorem moveReadRecord_aux_of_readLink (h : si.readLink l = some r) (hf : l.2 ≠ .indexFile)
    (x : SequentialIndexRecord κ) : si.moveReadRecord .aux l.1 x = (r, .aux) := by
  have := moveReadRecord_of_readLink h x
  rwa [FilePos.stream, if_neg hf] at this

/-- The read of the next record of the chain, with both streams good. -/
theorem moveReadNext_of_readLink (h : si.readLink l = some r) (x : SequentialIndexRecord κ) :
    si.moveReadNext {} l.1 l.2 x = (r, {}) := by
  by_cases hf : l.2 = .indexFile
  · simp only [moveReadNext, if_pos hf, moveReadRecord_index_of_readLink h hf]
  · simp only [moveReadNext, if_neg hf, moveReadRecord_aux_of_readLink h hf]

/-- The records of the index file are read under its links. -/
theorem readLink_index_getElem {i : Nat} (hi : i < si.indexFile.length) :
    si.readLink (indexLayout.pos i, .indexFile) = some si.indexFile[i] := by
  rw [readLink_index, Layout.read_pos, List.getElem?_eq_getElem hi]

/-- A record of the first file has a link. -/
theorem exists_readLink_of_mem_index (h : r ∈ si.indexFile) :
    ∃ pos, si.readLink (pos, .indexFile) = some r :=
  Layout.exists_read_of_mem h

/-- A record of the second file has a link. -/
theorem exists_readLink_of_mem_aux (h : r ∈ si.auxFile) :
    ∃ pos, si.readLink (pos, .auxFile) = some r :=
  Layout.exists_read_of_mem h

/-- A link into the first file leads to one of its records. -/
theorem mem_index_of_readLink (h : si.readLink l = some r) (hf : l.2 = .indexFile) :
    r ∈ si.indexFile := by
  obtain ⟨pos, f⟩ := l
  cases hf
  exact Layout.mem_of_read (L := indexLayout) h

/-- A link into the second file leads to one of its records. -/
theorem mem_aux_of_readLink (h : si.readLink l = some r) (hf : l.2 = .auxFile) :
    r ∈ si.auxFile := by
  obtain ⟨pos, f⟩ := l
  cases hf
  exact Layout.mem_of_read (L := auxLayout) h

/-- Every record stores its own position and file when those of the two files do so one by one. -/
theorem own_of_files
    (hi : ∀ i (h : i < si.indexFile.length),
      si.indexFile[i].loc = (indexLayout.pos i, .indexFile))
    (ha : ∀ i (h : i < si.auxFile.length), si.auxFile[i].loc = (auxLayout.pos i, .auxFile)) :
    ∀ l r, si.readLink l = some r → r.loc = l := by
  rintro ⟨pos, f⟩ r hr
  rcases file_of_readLink hr with hf | hf <;> cases hf
  · obtain ⟨i, h, rfl, rfl⟩ := Layout.read_eq_some (L := indexLayout) hr
    exact hi i h
  · obtain ⟨i, h, rfl, rfl⟩ := Layout.read_eq_some (L := auxLayout) hr
    exact ha i h

/-! ## Runs of overflow records -/

/-- The overflow records from the link `l` up to a link `l'` into the index file. -/
structure AuxRun (si : SequentialIndex κ) (l : Int × FilePos) (A : List (SequentialIndexRecord κ))
    (l' : Int × FilePos) : Prop where
  path : Path si.readLink (·.link) l A l'
  aux : ∀ a ∈ A, a.currentFile = .auxFile
  file : l'.2 = .indexFile

variable {A : List (SequentialIndexRecord κ)} {a : SequentialIndexRecord κ}

/-- The file of a link tells whether a run starts there. -/
theorem AuxRun.file_eq_iff (hrun : si.AuxRun l A l')
    (hown : ∀ l r, si.readLink l = some r → r.loc = l) : l.2 = .indexFile ↔ A = [] := by
  cases A with
  | nil =>
    obtain rfl := Path.nil_iff.1 hrun.path
    simp [hrun.file]
  | cons a A =>
    have hl := hown _ _ (Path.cons_iff.1 hrun.path).1
    have : l.2 = .auxFile := by rw [← hl]; exact hrun.aux a (.head _)
    simp [this]

/-- A link into the first file starts no run of records of the second. -/
theorem AuxRun.nil (h : l.2 = .indexFile) : si.AuxRun l [] l := ⟨.nil, by simp, h⟩

/-- A run starts at a record of the second file and goes on behind it. -/
theorem AuxRun.cons_iff : si.AuxRun l (a :: A) l' ↔
    si.readLink l = some a ∧ a.currentFile = .auxFile ∧ si.AuxRun a.link A l' := by
  refine ⟨fun h => ?_, fun ⟨h1, h2, h3⟩ => ?_⟩
  · obtain ⟨h1, h2⟩ := Path.cons_iff.1 h.path
    exact ⟨h1, h.aux a (.head _), h2, fun x hx => h.aux x (.tail _ hx), h.file⟩
  · refine ⟨.cons h1 h3.path, fun x hx => ?_, h3.file⟩
    rcases List.mem_cons.1 hx with rfl | hx
    · exact h2
    · exact h3.aux x hx

/-- The chain from any of its links starts with a run. -/
theorem exists_auxRun (hown : ∀ l r, si.readLink l = some r → r.loc = l) :
    ∀ {s : List (SequentialIndexRecord κ)} {l : Int × FilePos},
      Path si.readLink (·.link) l s endLink →
      ∃ A S l', s = A ++ S ∧ si.AuxRun l A l' ∧ Path si.readLink (·.link) l' S endLink
  | [], l, h => ⟨[], [], l, rfl, .nil (by cases h; rfl), h⟩
  | r :: s, l, h => by
    obtain ⟨hr, hs⟩ := Path.cons_iff.1 h
    rcases file_of_readLink hr with hf | hf
    · exact ⟨[], r :: s, l, rfl, .nil hf, h⟩
    · obtain ⟨A, S, l', rfl, hrun, hS⟩ := exists_auxRun hown hs
      refine ⟨r :: A, S, l', rfl, AuxRun.cons_iff.2 ⟨hr, ?_, hrun⟩, hS⟩
      rw [← hf, ← hown _ _ hr]; rfl

/-! ## Well-formed states -/

variable [KeyType κ]

/-- What an insertion looks at: a chain in key order that visits every record of the index file, in
physical order, whatever hangs off its records. -/
structure Threaded (si : SequentialIndex κ) (c : List (SequentialIndexRecord κ)) : Prop where
  chain : si.Chain c
  sorted : SortedBy (·.data) c
  own : ∀ l r, si.readLink l = some r → r.loc = l
  index : c.filter (·.currentFile = .indexFile) = si.indexFile
  empty : si.indexFile = [] → c = []

/-- What the queries need: a chain in key order that visits every record of the index file, in
physical order. The overflow file may have records to which no link leads. -/
structure Linked (si : SequentialIndex κ) (c : List (SequentialIndexRecord κ)) : Prop where
  chain : si.Chain c
  sorted : SortedBy (·.data) c
  own : ∀ l r, si.readLink l = some r → r.loc = l
  index : c.filter (·.currentFile = .indexFile) = si.indexFile
  empty : si.indexFile = [] → c = []
  duplicates : ∀ r ∈ c, ∃ dups, DupChain duplicatesLayout si.duplicatesFile r.dupPos dups

/-- A state with a chain that visits every record once, in key order. -/
structure WellFormed (si : SequentialIndex κ) (c : List (SequentialIndexRecord κ)) : Prop where
  chain : si.Chain c
  sorted : SortedBy (·.data) c
  own : ∀ l r, si.readLink l = some r → r.loc = l
  /-- The index file is in the order of the chain. -/
  index : c.filter (·.currentFile = .indexFile) = si.indexFile
  aux : (c.filter (·.currentFile = .auxFile)).Perm si.auxFile
  auxEmpty : si.indexFile = [] → si.auxFile = []
  duplicates : ∀ r ∈ c, ∃ dups, DupChain duplicatesLayout si.duplicatesFile r.dupPos dups

/-- No duplicate hangs off two records of a chain. -/
def DisjointDuplicates (si : SequentialIndex κ) (c : List (SequentialIndexRecord κ)) : Prop :=
  DisjointChains duplicatesLayout si.duplicatesFile (c.map (·.dupPos))

/-- What an index with the chain `c` holds. -/
def Contents (si : SequentialIndex κ) (c : List (SequentialIndexRecord κ))
    (m : Multimap κ Int) : Prop :=
  Multimap.Represented si.RecordHolds c m

variable {m : Multimap κ Int} {k : κ}

/-- The records of the first file are in order. -/
theorem Threaded.sorted_index (h : si.Threaded c) : SortedBy (·.data) si.indexFile := by
  rw [← h.index]
  exact h.sorted.filter _

/-- A record of the chain is read under its own link. -/
theorem Threaded.readLink_loc (h : si.Threaded c) (hr : r ∈ c) :
    si.readLink r.loc = some r := by
  obtain ⟨l, hl⟩ := Path.exists_read h.chain hr
  rw [h.own l r hl, hl]

/-- The first file has the records of the chain that say so. -/
theorem Threaded.mem_index_iff (h : si.Threaded c) :
    r ∈ si.indexFile ↔ r ∈ c ∧ r.currentFile = .indexFile := by
  rw [← h.index]; simp

/-- A first file with records can be searched. -/
theorem Threaded.searchable (h : si.Threaded c) (hne : si.indexFile ≠ []) :
    si.Searchable where
  nonempty := hne
  sorted := h.sorted_index
  own _ hi := (Prod.ext_iff.1 (h.own _ _ (readLink_index_getElem hi))).1

/-- A chain that holds all records threads the first file. -/
theorem Linked.threaded (h : si.Linked c) : si.Threaded c :=
  ⟨h.chain, h.sorted, h.own, h.index, h.empty⟩

/-- The records of the first file are in order. -/
theorem Linked.sorted_index (h : si.Linked c) : SortedBy (·.data) si.indexFile :=
  h.threaded.sorted_index

/-- A record of the chain stands where it says. -/
theorem Linked.readLink_loc (h : si.Linked c) (hr : r ∈ c) : si.readLink r.loc = some r :=
  h.threaded.readLink_loc hr

/-- The first file has the records of the chain that say so. -/
theorem Linked.mem_index_iff (h : si.Linked c) :
    r ∈ si.indexFile ↔ r ∈ c ∧ r.currentFile = .indexFile := h.threaded.mem_index_iff

/-- A first file with records can be searched. -/
theorem Linked.searchable (h : si.Linked c) (hne : si.indexFile ≠ []) : si.Searchable :=
  h.threaded.searchable hne

/-- The chain has every record of the two files. -/
theorem WellFormed.mem_chain (h : si.WellFormed c) (hr : si.readLink l = some r) : r ∈ c := by
  rcases file_of_readLink hr with hf | hf
  · have hm := mem_index_of_readLink hr hf
    rw [← h.index] at hm
    exact List.mem_of_mem_filter hm
  · have hm := mem_aux_of_readLink hr hf
    rw [← h.aux.mem_iff] at hm
    exact List.mem_of_mem_filter hm

/-- Well-formed files are linked. -/
theorem WellFormed.linked (h : si.WellFormed c) : si.Linked c where
  chain := h.chain
  sorted := h.sorted
  own := h.own
  index := h.index
  duplicates := h.duplicates
  empty he := by
    refine List.eq_nil_iff_forall_not_mem.2 fun r hr => ?_
    obtain ⟨l, hl⟩ := Path.exists_read h.chain hr
    rcases file_of_readLink hl with hf | hf
    · have := mem_index_of_readLink hl hf
      simp [he] at this
    · have := mem_aux_of_readLink hl hf
      simp [h.auxEmpty he] at this

/-- A chain that has every record of the files visits them as it should. -/
theorem WellFormed.of_covers (chain : si.Chain c) (sorted : SortedBy (·.data) c)
    (own : ∀ l r, si.readLink l = some r → r.loc = l)
    (covers : ∀ l r, si.readLink l = some r → r ∈ c)
    (sortedIndex : SortedBy (·.data) si.indexFile)
    (auxEmpty : si.indexFile = [] → si.auxFile = [])
    (contents : si.Contents c m) : si.WellFormed c where
  chain := chain
  sorted := sorted
  own := own
  auxEmpty := auxEmpty
  index := by
    refine (sorted.filter _).eq_of_mem_iff sortedIndex fun r => ⟨fun hr => ?_, fun hr => ?_⟩
    · obtain ⟨hr, hf⟩ := List.mem_filter.1 hr
      obtain ⟨l, hl⟩ := Path.exists_read chain hr
      refine mem_index_of_readLink hl ?_
      rw [← own l r hl]
      exact of_decide_eq_true hf
    · obtain ⟨pos, hl⟩ := exists_readLink_of_mem_index hr
      have hloc := own _ r hl
      exact List.mem_filter.2 ⟨covers _ r hl, decide_eq_true (Prod.ext_iff.1 hloc).2⟩
  aux := by
    refine (List.perm_ext_iff_of_nodup (List.Nodup.filter _ sorted.nodup) ?_).2
      fun r => ⟨fun hr => ?_, fun hr => ?_⟩
    · -- two places of one record would be two links under which it stands
      refine List.nodup_iff_getElem?_ne_getElem?.2 fun i j hij hj he => ?_
      have hread : ∀ n (hn : n < si.auxFile.length),
          si.auxFile[n].loc = (auxLayout.pos n, .auxFile) := fun n hn =>
        own _ _ (by rw [readLink_aux, Layout.read_pos, List.getElem?_eq_getElem hn])
      rw [List.getElem?_eq_getElem hj, List.getElem?_eq_getElem (hij.trans hj),
        Option.some_inj] at he
      have := hread i (hij.trans hj)
      rw [he, hread j hj] at this
      exact hij.ne' (Layout.pos_inj (Prod.ext_iff.1 this).1)
    · obtain ⟨hr, hf⟩ := List.mem_filter.1 hr
      obtain ⟨l, hl⟩ := Path.exists_read chain hr
      refine mem_aux_of_readLink hl ?_
      rw [← own l r hl]
      exact of_decide_eq_true hf
    · obtain ⟨pos, hl⟩ := exists_readLink_of_mem_aux hr
      have hloc := own _ r hl
      exact List.mem_filter.2 ⟨covers _ r hl, decide_eq_true (Prod.ext_iff.1 hloc).2⟩
  duplicates r hr := by
    obtain ⟨e, -, -, -, dups, hd, -⟩ := Multimap.forall₂_exists contents hr
    exact ⟨dups, hd⟩

/-- What a chain in key order with finite chains of duplicates holds. -/
theorem exists_contents (hsort : SortedBy (·.data) c)
    (hdups : ∀ r ∈ c, ∃ dups, DupChain duplicatesLayout si.duplicatesFile r.dupPos dups) :
    ∃ m, si.Contents c m := by
  have hall : ∀ c' : List (SequentialIndexRecord κ), (∀ r ∈ c', ∃ e, si.RecordHolds r e) →
      ∃ E, List.Forall₂ si.RecordHolds c' E := by
    intro c' hc'
    induction c' with
    | nil => exact ⟨[], .nil⟩
    | cons r c' ih =>
      obtain ⟨e, he⟩ := hc' r (.head _)
      obtain ⟨E, hE⟩ := ih fun x hx => hc' x (.tail _ hx)
      exact ⟨e :: E, .cons he hE⟩
  obtain ⟨E, hE⟩ := hall c fun r hr => by
    obtain ⟨dups, hd⟩ := hdups r hr
    exact ⟨⟨r.data, r.rawPos, _⟩, rfl, rfl, dups, hd, rfl⟩
  refine ⟨⟨E, hsort.congr_map ?_⟩, hE⟩
  exact Multimap.forall₂_keys (fun _ _ hR => hR.1) hE

/-! ## The gap of a key -/

/-- The chain cut at the link `l`, behind which the key `k` belongs: `P` is below the key, `S` is
above it, and the run `A` between them is where it is or where it goes. -/
structure Gap (si : SequentialIndex κ) (c : List (SequentialIndexRecord κ)) (k : κ)
    (P : List (SequentialIndexRecord κ)) (l : Int × FilePos) (A : List (SequentialIndexRecord κ))
    (l' : Int × FilePos) (S : List (SequentialIndexRecord κ)) : Prop where
  eq : c = P ++ (A ++ S)
  before : Path si.readLink (·.link) si.header.link P l
  run : si.AuxRun l A l'
  after : Path si.readLink (·.link) l' S endLink
  lt : ∀ x ∈ P, x.data < k
  gt : ∀ x ∈ S, k < x.data

/-- The record behind which a key belongs that the binary search has not found. -/
def gapRecord (bsr : BinarySearchResponse κ) : SequentialIndexRecord κ :=
  if bsr.location = .recPrev then bsr.sirPrev else bsr.sir

/-- Where the gap that the binary search has found starts: at the header or at a record of the
index file. -/
inductive GapAt (si : SequentialIndex κ) (c : List (SequentialIndexRecord κ)) (k : κ)
    (bsr : BinarySearchResponse κ) : Prop
  | header (A S : List (SequentialIndexRecord κ)) (l' : Int × FilePos)
      (location : bsr.location = .recPrev) (header : bsr.header = true)
      (sih : bsr.sih = si.header) (gap : si.Gap c k [] si.header.link A l' S)
      (next : ∃ S', S = bsr.sir :: S')
  | record (P A S : List (SequentialIndexRecord κ)) (l' : Int × FilePos)
      (location : bsr.location = .recPrev ∨ bsr.location = .recNext) (header : bsr.header = false)
      (mem : gapRecord bsr ∈ si.indexFile)
      (gap : si.Gap c k (P ++ [gapRecord bsr]) (gapRecord bsr).link A l' S)

/-- The rest of the chain behind an index record, cut into its run and what is above a key that is
below the next index record. -/
theorem Threaded.gap_of_getElem (h : si.Threaded c) {i : Nat} (hi : i < si.indexFile.length)
    (hlt : si.indexFile[i].data < k)
    (hgt : ∀ hi' : i + 1 < si.indexFile.length, k < si.indexFile[i + 1].data) :
    ∃ P A S l', si.Gap c k (P ++ [si.indexFile[i]]) si.indexFile[i].link A l' S := by
  obtain ⟨P, s, rfl⟩ := List.append_of_mem (h.mem_index_iff.1 (List.getElem_mem hi)).1
  obtain ⟨j, hP, hs⟩ := Path.of_append h.chain
  obtain ⟨hj, hs⟩ := Path.cons_iff.1 hs
  obtain ⟨A, S, l', rfl, hrun, hS⟩ := exists_auxRun h.own hs
  have hsort := h.sorted.around
  refine ⟨P, A, S, l', by simp, hP.append (.cons hj .nil), hrun, hS, fun x hx => ?_, ?_⟩
  · rcases List.mem_append.1 hx with hx | hx
    · exact (hsort.1 x hx).trans hlt
    · rwa [List.mem_singleton.1 hx]
  -- the record behind the run is one of the index file, further on than the cut
  cases S with
  | nil => simp
  | cons s S =>
    have hmem := mem_index_of_readLink (Path.cons_iff.1 hS).1 hrun.file
    obtain ⟨n, hn, hsn⟩ := List.mem_iff_getElem.1 hmem
    have his : si.indexFile[i].data < s.data := hsort.2 s (by simp)
    have hin : i < n := by
      by_contra hc
      have := h.sorted_index.getElem_le (not_lt.1 hc) hi
      rw [hsn] at this
      exact absurd his this.not_gt
    have hks : k < s.data := by
      rw [← hsn]
      exact (hgt (by omega)).trans_le (h.sorted_index.getElem_le hin hn)
    have htail := (SortedBy.append_iff.1 (SortedBy.append_iff.1 h.sorted).2.1.tail).2.1
    intro x hx
    rcases List.mem_cons.1 hx with rfl | hx
    · exact hks
    · exact hks.trans ((SortedBy.cons_iff.1 htail).1 x hx)

/-- The run of the header, for a key below the first record of the index file. -/
theorem Threaded.gap_of_first (h : si.Threaded c) (hi : 0 < si.indexFile.length)
    (hlt : k < si.indexFile[0].data) :
    ∃ A S l', si.Gap c k [] si.header.link A l' (si.indexFile[0] :: S) := by
  obtain ⟨A, S, l', rfl, hrun, hS⟩ := exists_auxRun h.own h.chain
  have hA : A.filter (·.currentFile = .indexFile) = [] :=
    List.filter_eq_nil_iff.2 fun a ha => by simp [hrun.aux a ha]
  have hfile := h.index
  rw [List.filter_append, hA, List.nil_append] at hfile
  cases S with
  | nil => simp [← hfile] at hi
  | cons s S =>
    obtain ⟨hs, hS'⟩ := Path.cons_iff.1 hS
    have hsf : s.currentFile = .indexFile := by
      rw [← hrun.file, ← h.own _ _ hs]; rfl
    have h0 : si.indexFile[0] = s := by simp [← hfile, hsf]
    rw [h0] at hlt ⊢
    refine ⟨A, S, l', rfl, .nil, hrun, hS, by simp, fun x hx => ?_⟩
    rcases List.mem_cons.1 hx with rfl | hx
    · exact hlt
    · exact hlt.trans ((SortedBy.cons_iff.1 (SortedBy.append_iff.1 h.sorted).2.1).1 x hx)

/-- A key that the binary search has not found in the index file has a gap. -/
theorem Threaded.gapAt (h : si.Threaded c) {bsr : BinarySearchResponse κ}
    (hf : Found si k bsr) (hne : bsr.location ≠ .recCur) : si.GapAt c k bsr := by
  cases hf with
  | cur i hi location => exact absurd location hne
  | first hi location header sih sir lt =>
    obtain ⟨A, S, l', hg⟩ := h.gap_of_first hi lt
    exact .header A _ l' location header sih hg ⟨S, by rw [sir]⟩
  | prev i hi location header sirPrev sir gt lt =>
    obtain ⟨P, A, S, l', hg⟩ := h.gap_of_getElem (by omega) gt fun _ => lt
    have hr : gapRecord bsr = si.indexFile[i] := by rw [gapRecord, if_pos location, sirPrev]
    exact .record P A S l' (.inl location) header (by rw [hr]; exact List.getElem_mem _)
      (by rwa [hr])
  | next i hi location header sir gt lt =>
    obtain ⟨P, A, S, l', hg⟩ := h.gap_of_getElem hi gt fun hi' => (lt hi').1
    have hr : gapRecord bsr = si.indexFile[i] := by
      rw [gapRecord, if_neg (by rw [location]; decide), sir]
    exact .record P A S l' (.inr location) header (by rw [hr]; exact List.getElem_mem _)
      (by rwa [hr])

/-- What `binary_search` finds next to the place of a key is a gap of the chain. -/
theorem Linked.gapAt (h : si.Linked c) {bsr : BinarySearchResponse κ} (hf : Found si k bsr)
    (hne : bsr.location ≠ .recCur) : si.GapAt c k bsr := h.threaded.gapAt hf hne

end SequentialIndex

end Rdbms
