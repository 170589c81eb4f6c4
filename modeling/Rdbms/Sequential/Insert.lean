import Rdbms.Sequential.Rebuild

/-!
# Insertion into the sequential index

`add` puts a new record behind the header or behind a record of either file, hangs a duplicate off
the record of its key, or writes the first record. Each of these keeps a well-formed index well
formed and inserts into the multimap it holds (`Inserted`), with one exception: a key below the
overflow record that the header points to. There `insertAux` writes the new header to the stream of
the overflow file, over its first record (`HeaderMisplaced`).
-/

namespace Rdbms

namespace SequentialIndex
variable {κ : Type} {si : SequentialIndex κ} {c : List (SequentialIndexRecord κ)}
  {l l' : Int × FilePos} {r p x : SequentialIndexRecord κ}

/-! ## What the writes do to the links -/

/-- A write into the index file that a good stream can seek to. -/
theorem moveWriteRecord_index {pos : Int} (hpos : 0 ≤ pos) (x : SequentialIndexRecord κ) :
    si.moveWriteRecord .index pos x =
      ({ si with indexFile := indexLayout.write si.indexFile pos x }, .index) := by
  simp only [moveWriteRecord, hpos, and_self, if_true]

/-- A write over a record of the files is made, and leaves its stream good. -/
theorem moveWriteRecord_of_readLink (h : si.readLink l = some p) (x : SequentialIndexRecord κ) :
    si.moveWriteRecord l.2.stream l.1 x =
      (if l.2 = .indexFile then
        { si with indexFile := indexLayout.write si.indexFile l.1 x }
      else { si with auxFile := auxLayout.write si.auxFile l.1 x }, l.2.stream) := by
  obtain ⟨pos, f⟩ := l
  rcases file_of_readLink h with hf | hf <;> cases hf
  · have hpos : 0 ≤ pos := Layout.nonneg_of_read (L := indexLayout) h
    simp only [moveWriteRecord, FilePos.stream, if_true, hpos, and_self]
  · have hpos : 0 ≤ pos := Layout.nonneg_of_read (L := auxLayout) h
    simp only [moveWriteRecord, FilePos.stream, if_neg (show FilePos.auxFile ≠ .indexFile by decide),
      hpos, and_self, if_true]

/-- A record written over the one that stands there is read at its link, all else is as before. -/
theorem readLink_moveWriteRecord (h : si.readLink l = some p) (x : SequentialIndexRecord κ)
    (l' : Int × FilePos) :
    (si.moveWriteRecord l.2.stream l.1 x).1.readLink l' =
      if l' = l then some x else si.readLink l' := by
  rw [moveWriteRecord_of_readLink h]
  obtain ⟨pos, f⟩ := l
  obtain ⟨pos', f'⟩ := l'
  rcases file_of_readLink h with hf | hf <;> cases hf
  · have hw := Layout.read_write (L := indexLayout) (a := x) (q := pos') h
    cases f' <;> simp [readLink, hw]
  · have hw := Layout.read_write (L := auxLayout) (a := x) (q := pos') h
    cases f' <;> simp [readLink, hw]

/-- Where the next record of the overflow file goes. -/
abbrev auxEnd (si : SequentialIndex κ) : Int × FilePos :=
  (auxLayout.endPos si.auxFile, .auxFile)

/-- Nothing stands there yet. -/
theorem readLink_auxEnd : si.readLink si.auxEnd = none := Layout.read_endPos

/-- What the links name after a record has been appended. -/
theorem readLink_insertAuxFile (si : SequentialIndex κ) (r : SequentialIndexRecord κ)
    (l : Int × FilePos) : (si.insertAuxFile r).1.readLink l =
    if l = si.auxEnd then some (si.insertAuxFile r).2 else si.readLink l := by
  obtain ⟨pos, f⟩ := l
  cases f <;> simp [insertAuxFile, readLink, Layout.read_append_singleton]

/-- A record written over one with its key leaves the keys of the index file. -/
theorem map_data_moveWriteRecord (h : si.readLink l = some p) (hx : x.data = p.data) :
    (si.moveWriteRecord l.2.stream l.1 x).1.indexFile.map (·.data) =
      si.indexFile.map (·.data) := by
  rw [moveWriteRecord_of_readLink h]
  obtain ⟨pos, f⟩ := l
  rcases file_of_readLink h with hf | hf <;> cases hf
  · exact Layout.map_write (L := indexLayout) (·.data) h hx
  · rfl

/-- A write leaves everything but the two files. -/
theorem moveWriteRecord_frame (s : Stream) (pos : Int) (x : SequentialIndexRecord κ) :
    (si.moveWriteRecord s pos x).1.pk = si.pk ∧ (si.moveWriteRecord s pos x).1.header = si.header ∧
      (si.moveWriteRecord s pos x).1.duplicatesFile = si.duplicatesFile := by
  unfold moveWriteRecord
  split_ifs
  · split <;> exact ⟨rfl, rfl, rfl⟩
  · exact ⟨rfl, rfl, rfl⟩

/-- A write does not change the kind of the index. -/
@[simp] theorem pk_moveWriteRecord {s : Stream} {pos : Int} :
    (si.moveWriteRecord s pos x).1.pk = si.pk := (moveWriteRecord_frame s pos x).1

/-- Nor the header. -/
@[simp] theorem header_moveWriteRecord {s : Stream} {pos : Int} :
    (si.moveWriteRecord s pos x).1.header = si.header := (moveWriteRecord_frame s pos x).2.1

/-- Nor the duplicates. -/
@[simp] theorem duplicatesFile_moveWriteRecord {s : Stream} {pos : Int} :
    (si.moveWriteRecord s pos x).1.duplicatesFile = si.duplicatesFile :=
  (moveWriteRecord_frame s pos x).2.2

variable [KeyType κ] {c1 c2 : List (SequentialIndexRecord κ)} {m : Multimap κ Int}
  {si' : SequentialIndex κ} {p' : SequentialIndexRecord κ}

/-- After a record `p` of the chain has been rewritten to `p'` and the records `added` have been
appended, every record still stores its own link and is on the new chain. -/
theorem WellFormed.reads_update (h : si.WellFormed (c1 ++ p :: c2))
    (p' : SequentialIndexRecord κ) (added : List (SequentialIndexRecord κ))
    (si' : SequentialIndex κ) (hp' : p'.loc = p.loc)
    (hread : ∀ l x, si'.readLink l = some x → l = p.loc ∧ x = p' ∨ (x ∈ added ∧ x.loc = l) ∨
      l ≠ p.loc ∧ si.readLink l = some x) :
    (∀ l x, si'.readLink l = some x → x.loc = l) ∧
      ∀ l x, si'.readLink l = some x → x ∈ c1 ++ p' :: (added ++ c2) := by
  refine ⟨fun l x hx => ?_, fun l x hx => ?_⟩
  · rcases hread l x hx with ⟨rfl, rfl⟩ | ⟨-, hl⟩ | ⟨-, hl⟩
    · exact hp'
    · exact hl
    · exact h.own l x hl
  · rcases hread l x hx with ⟨-, rfl⟩ | ⟨ha, -⟩ | ⟨hne, hl⟩
    · simp
    · simp [ha]
    · have hmem := h.mem_chain hl
      rw [List.mem_append, List.mem_cons] at hmem
      rcases hmem with hx | rfl | hx
      · simp [hx]
      · exact absurd (h.own l x hl).symm hne
      · simp [hx]

/-- The other records of the chain do not stand where `p` stands. -/
theorem WellFormed.ne_loc (h : si.WellFormed (c1 ++ p :: c2)) {a : SequentialIndexRecord κ}
    (ha : a ∈ c1 ∨ a ∈ c2) (hl : si.readLink l = some a) : l ≠ p.loc := by
  rintro rfl
  have hp := h.linked.readLink_loc (r := p) (by simp)
  obtain rfl : a = p := Option.some.inj (hl.symm.trans hp)
  have hsort := h.sorted.around
  rcases ha with ha | ha
  · exact lt_irrefl _ (hsort.1 a ha)
  · exact lt_irrefl _ (hsort.2 a ha)

omit [KeyType κ] in
/-- A record holds what it held as long as its key, its positions and the duplicates file stay. -/
theorem recordHolds_of_eq (hr : p'.toRecord = p.toRecord)
    (hd : si'.duplicatesFile = si.duplicatesFile) {e : Entry κ Int} (h : si.RecordHolds p e) :
    si'.RecordHolds p' e := by
  unfold RecordHolds HasPositions at *
  rw [hd]
  change p'.toRecord.data = e.key ∧ p'.toRecord.rawPos = e.first ∧
    ∃ chain, DupChain duplicatesLayout si.duplicatesFile p'.toRecord.dupPos chain ∧ _
  rw [hr]
  exact h

omit [KeyType κ] in
/-- A record without duplicates holds its own position. -/
theorem recordHolds_single (hr : r.dupPos = endOfFile) :
    si.RecordHolds r ⟨r.data, r.rawPos, []⟩ :=
  ⟨rfl, rfl, [], Path.nil_iff.2 hr, rfl⟩

/-! ## A new record behind a record -/

/-- A record as `insertAfterRecord` appends it behind `p`. -/
def linkedAfter (si : SequentialIndex κ) (p r : SequentialIndexRecord κ) :
    SequentialIndexRecord κ :=
  (r.setNext p.nextPos p.nextFile).setCurrent (auxLayout.endPos si.auxFile) .auxFile

omit [KeyType κ] in
/-- A chain in which a record has been rewritten to `p'`, with a new record without duplicates behind
it. -/
theorem DisjointDuplicates.insert_after {p' r' : SequentialIndexRecord κ}
    (h : si.DisjointDuplicates (c1 ++ p :: c2)) (hd : si'.duplicatesFile = si.duplicatesFile)
    (hp' : p'.dupPos = p.dupPos) (hr' : r'.dupPos = endOfFile) :
    si'.DisjointDuplicates (c1 ++ p' :: r' :: c2) := by
  rw [DisjointDuplicates, List.map_append, List.map_cons] at h
  rw [DisjointDuplicates, hd, List.map_append, List.map_cons, List.map_cons, hp', hr',
    List.append_cons]
  rw [List.append_cons] at h
  exact h.insert_end

/-- Linking a new record in behind a record that is below it, in front of records that are above
it. -/
theorem WellFormed.insertAfterRecord (h : si.WellFormed (c1 ++ p :: c2))
    (hm : si.Contents (c1 ++ p :: c2) m) (hlt : p.data < r.data)
    (hgt : ∀ x ∈ c2, r.data < x.data) (hdup : r.dupPos = endOfFile) (file : Stream)
    (hfile : file = p.currentFile.stream) (sih : SequentialIndexHeader) :
    ∃ c', (si.insertAfterRecord file p r sih false).WellFormed c' ∧
      (si.insertAfterRecord file p r sih false).Contents c' (m.insert r.data r.rawPos) ∧
      (si.DisjointDuplicates (c1 ++ p :: c2) →
        (si.insertAfterRecord file p r sih false).DisjointDuplicates c') := by
  subst hfile
  have hp := h.linked.readLink_loc (r := p) (by simp)
  let r' := si.linkedAfter p r
  let p' := p.setNext (auxLayout.endPos si.auxFile) .auxFile
  let si' := si.insertAfterRecord p.currentFile.stream p r sih false
  have hne : si.auxEnd ≠ p.loc := fun hc => by
    rw [← hc, readLink_auxEnd] at hp; cases hp
  have hp1 : (si.insertAuxFile (r.setNext p.nextPos p.nextFile)).1.readLink p.loc = some p := by
    rw [readLink_insertAuxFile, if_neg hne.symm, hp]
  have hread : ∀ l, si'.readLink l = if l = p.loc then some p' else
      if l = si.auxEnd then some r' else si.readLink l := fun l => by
    have := readLink_moveWriteRecord hp1 p' l
    rw [readLink_insertAuxFile] at this
    exact this
  have hr' : si'.readLink si.auxEnd = some r' := by rw [hread, if_neg hne, if_pos rfl]
  have hkeep : ∀ k, ∀ a, (a ∈ c1 ∨ a ∈ c2) → si.readLink k = some a → si'.readLink k = some a := by
    intro k a ha hk
    have hk' : k ≠ si.auxEnd := fun hc => by rw [hc, readLink_auxEnd] at hk; cases hk
    rw [hread, if_neg (h.ne_loc ha hk), if_neg hk', hk]
  obtain ⟨hown, hcov⟩ := h.reads_update p' [r'] si' rfl
    fun l x hx => by
      rw [hread] at hx
      split at hx
      · next hl => exact .inl ⟨hl, (Option.some.inj hx).symm⟩
      · next hl =>
        split at hx
        · next hl' => cases hx; exact .inr (.inl ⟨by simp, hl'.symm⟩)
        · exact .inr (.inr ⟨hl, hx⟩)
  have hdups : si'.duplicatesFile = si.duplicatesFile := duplicatesFile_moveWriteRecord
  have hsort := h.sorted.around
  have hbefore : ∀ x ∈ c1 ++ [p'], x.data < r.data := fun x hx => by
    rcases List.mem_append.1 hx with hx | hx
    · exact (hsort.1 x hx).trans hlt
    · rwa [List.mem_singleton.1 hx]
  have hcells : si'.Contents (c1 ++ p' :: r' :: c2) (m.insert r.data r.rawPos) := by
    have hm' : si.Contents ((c1 ++ [p']) ++ c2) m := by
      rw [List.append_assoc]
      exact Multimap.forall₂_rewrite hm fun e he => recordHolds_of_eq rfl rfl he
    have : si'.Contents ((c1 ++ [p']) ++ r' :: c2) (m.insert r.data r.rawPos) :=
      Multimap.Represented.insert_new key_of_recordHolds hm' hbefore hgt
        (fun a e he => recordHolds_of_eq rfl hdups he) (recordHolds_single hdup)
    rwa [List.append_assoc] at this
  have hindex : si'.indexFile.map (·.data) = si.indexFile.map (·.data) :=
    map_data_moveWriteRecord (x := p') hp1 rfl
  refine ⟨c1 ++ p' :: r' :: c2, .of_covers ?_ ?_ hown hcov
    (h.linked.sorted_index.congr_map hindex) ?_ hcells, hcells,
    fun hd => hd.insert_after hdups rfl hdup⟩
  · have hheader : si'.header = si.header := header_moveWriteRecord
    rw [Chain, hheader]
    refine Path.splice h.chain (fun k hk => (h.own k p hk).symm) (fun k a ha => hkeep k a (.inl ha))
      (fun k a ha => hkeep k a (.inr ha)) (by rw [hread, if_pos rfl]) rfl hr' rfl
  · have := (h.sorted.replace (b := p') rfl)
    rw [← List.singleton_append, ← List.append_assoc] at this
    simpa using this.insert (a := r') hbefore hgt
  · intro he
    rw [he] at hindex
    have := h.linked.empty (List.map_eq_nil_iff.1 hindex.symm)
    simp at this

/-! ## A new record behind the header -/

/-- Linking a new record in front of a chain that is above it. -/
theorem WellFormed.insertAfterRecord_header (h : si.WellFormed c) (hm : si.Contents c m)
    (hne : si.indexFile ≠ []) (hgt : ∀ x ∈ c, r.data < x.data) (hdup : r.dupPos = endOfFile)
    (p : SequentialIndexRecord κ) :
    ∃ c', (si.insertAfterRecord .index p r si.header true).WellFormed c' ∧
      (si.insertAfterRecord .index p r si.header true).Contents c'
        (m.insert r.data r.rawPos) ∧
      (si.DisjointDuplicates c →
        (si.insertAfterRecord .index p r si.header true).DisjointDuplicates c') := by
  let r' := (si.insertAuxFile (r.setNext si.header.nextPos si.header.nextFile)).2
  let si' := si.insertAfterRecord .index p r si.header true
  have hread : ∀ l, si'.readLink l = if l = si.auxEnd then some r' else si.readLink l := fun l => by
    have := readLink_insertAuxFile si (r.setNext si.header.nextPos si.header.nextFile) l
    obtain ⟨pos, f⟩ := l
    cases f <;> exact this
  have hkeep : ∀ k a, si.readLink k = some a → si'.readLink k = some a := fun k a hk => by
    have hk' : k ≠ si.auxEnd := fun hc => by rw [hc, readLink_auxEnd] at hk; cases hk
    rw [hread, if_neg hk', hk]
  have hcells : si'.Contents (r' :: c) (m.insert r.data r.rawPos) :=
    Multimap.Represented.insert_front key_of_recordHolds hm hgt
      (fun a e he => recordHolds_of_eq rfl rfl he) (recordHolds_single hdup)
  refine ⟨r' :: c, .of_covers (.cons ?_ ?_) (SortedBy.cons_iff.2 ⟨hgt, h.sorted⟩)
    (fun l x hx => ?_) (fun l x hx => ?_) h.linked.sorted_index (fun he => absurd he hne) hcells,
    hcells, fun hd => ?_⟩
  · exact (hread si.auxEnd).trans (if_pos rfl)
  · exact Path.congr h.chain fun k a _ => hkeep k a
  · rw [hread] at hx
    split at hx
    · next hl => cases hx; exact hl.symm
    · exact h.own l x hx
  · rw [hread] at hx
    split at hx
    · cases hx; exact .head _
    · exact .tail _ (h.mem_chain hx)
  · have hr' : r'.dupPos = endOfFile := hdup
    rw [DisjointDuplicates, List.map_cons, hr']
    exact DisjointChains.insert_end (s := []) hd

/-! ## The first record -/

/-- Writing the first record of an index. -/
theorem WellFormed.addFirst (h : si.WellFormed c) (hm : si.Contents c m)
    (he : si.indexFile = []) (hdup : r.dupPos = endOfFile) :
    ∃ c', (si.addFirst .index r).WellFormed c' ∧
      (si.addFirst .index r).Contents c' (m.insert r.data r.rawPos) ∧
      (si.addFirst .index r).DisjointDuplicates c' := by
  let r' := (r.setCurrent sequentialHeaderSize .indexFile).setNext endOfFile .indexFile
  have hc := h.linked.empty he
  subst hc
  have hfile : (si.addFirst .index r).indexFile = [r'] := by
    have : (si.addFirst .index r).indexFile =
      indexLayout.write si.indexFile sequentialHeaderSize r' := rfl
    rw [this, he]
    exact Layout.write_endPos (L := indexLayout) (f := [])
  have hcells : (si.addFirst .index r).Contents [r'] (m.insert r.data r.rawPos) :=
    Multimap.Represented.insert_front key_of_recordHolds hm (by simp)
      (fun a e he => recordHolds_of_eq rfl rfl he) (recordHolds_single hdup)
  rw [← hfile] at hcells
  refine ⟨_, .of_renumbered ?_ (h.auxEmpty he) ?_ ?_ hcells, hcells, ?_⟩
  · rw [hfile]; rfl
  · rw [hfile]; exact ⟨rfl, rfl, trivial⟩
  · rw [hfile]; exact List.pairwise_singleton _ _
  · rw [hfile]; exact List.pairwise_singleton _ _

/-! ## A duplicate -/

omit [KeyType κ] in
/-- A chain in which a record has got a new duplicate `dup` in front of the others. -/
theorem DisjointDuplicates.insert_duplicate (h : si.DisjointDuplicates (c1 ++ p :: c2))
    (hends : ∀ x ∈ c1 ++ p :: c2, ∃ dups, DupChain duplicatesLayout si.duplicatesFile x.dupPos dups)
    (dup : SequentialIndexRecord κ) (hdup : dup.dupPos = p.dupPos)
    (hd : si'.duplicatesFile = si.duplicatesFile ++ [dup]) :
    si'.DisjointDuplicates
      (c1 ++ p.setDupPos (duplicatesLayout.endPos si.duplicatesFile) :: c2) := by
  rw [DisjointDuplicates, List.map_append, List.map_cons] at h
  rw [DisjointDuplicates, hd, List.map_append, List.map_cons]
  refine DisjointChains.insertDuplicate h (fun q hq => ?_) dup hdup
  have hq : q ∈ (c1 ++ p :: c2).map (·.dupPos) := by
    rw [List.map_append, List.map_cons]
    exact hq
  obtain ⟨x, hx, rfl⟩ := List.mem_map.1 hq
  exact hends x hx

/-- Hanging a duplicate off the record of its key. -/
theorem WellFormed.insertDuplicate (h : si.WellFormed (c1 ++ p :: c2))
    (hm : si.Contents (c1 ++ p :: c2) m) (hk : p.data = r.data) (file : Stream)
    (hfile : file = p.currentFile.stream) :
    ∃ c', (si.insertDuplicate file p r).WellFormed c' ∧
      (si.insertDuplicate file p r).Contents c' (m.insert r.data r.rawPos) ∧
      (si.DisjointDuplicates (c1 ++ p :: c2) →
        (si.insertDuplicate file p r).DisjointDuplicates c') := by
  subst hfile
  have hp := h.linked.readLink_loc (r := p) (by simp)
  let p' := p.setDupPos (duplicatesLayout.endPos si.duplicatesFile)
  let si' := si.insertDuplicate p.currentFile.stream p r
  have hread : ∀ l, si'.readLink l = if l = p.loc then some p' else si.readLink l :=
    fun l => by
      let si1 : SequentialIndex κ :=
        { si with duplicatesFile := si.duplicatesFile ++ [r.setDupPos p.dupPos] }
      have hp1 : si1.readLink p.loc = some p := hp
      exact readLink_moveWriteRecord hp1 p' l
  have hkeep : ∀ k, ∀ a, (a ∈ c1 ∨ a ∈ c2) → si.readLink k = some a → si'.readLink k = some a :=
    fun k a ha hk => by rw [hread, if_neg (h.ne_loc ha hk), hk]
  obtain ⟨hown, hcov⟩ := h.reads_update p' [] si' rfl
    fun l x hx => by
      rw [hread] at hx
      split at hx
      · next hl => exact .inl ⟨hl, (Option.some.inj hx).symm⟩
      · next hl => exact .inr (.inr ⟨hl, hx⟩)
  have hdups : si'.duplicatesFile = si.duplicatesFile ++ [r.setDupPos p.dupPos] :=
    duplicatesFile_moveWriteRecord
  have hcells : si'.Contents (c1 ++ p' :: c2) (m.insert r.data r.rawPos) := by
    refine Multimap.Represented.insert_mem (a := p)
      key_of_recordHolds hm hk (fun a e he => ⟨he.1, ?_⟩) fun e he => ⟨he.1, ?_⟩
    · rw [hdups]; exact he.2.append _
    · rw [hdups]
      exact he.2.insertDuplicate (r.setDupPos p.dupPos) rfl
  have hindex : si'.indexFile.map (·.data) = si.indexFile.map (·.data) :=
    map_data_moveWriteRecord (x := p') (l := p.loc) hp rfl
  refine ⟨c1 ++ p' :: c2, .of_covers ?_ (h.sorted.replace rfl) hown hcov
    (h.linked.sorted_index.congr_map hindex) ?_ hcells, hcells,
    fun hd => hd.insert_duplicate h.duplicates (r.setDupPos p.dupPos) rfl hdups⟩
  · have hheader : si'.header = si.header := header_moveWriteRecord
    rw [Chain, hheader]
    exact Path.rewrite h.chain (fun k hk => (h.own k p hk).symm) (fun k a ha => hkeep k a (.inl ha))
      (fun k a ha => hkeep k a (.inr ha)) (by rw [hread, if_pos rfl]) rfl
  · intro he
    rw [he] at hindex
    have := h.linked.empty (List.map_eq_nil_iff.1 hindex.symm)
    simp at this

/-! ## The branches of `add` -/

/-- An insertion does not change the kind of the index. -/
@[simp] theorem pk_insertAfterRecord {file : Stream} {sih : SequentialIndexHeader}
    {header : Bool} : (si.insertAfterRecord file p r sih header).pk = si.pk := by
  cases header with
  | false => exact pk_moveWriteRecord
  | true =>
    simp only [SequentialIndex.insertAfterRecord, if_true, writeHeader]
    split_ifs
    · split <;> rfl
    · rfl

omit [KeyType κ] in
/-- Nor does a duplicate. -/
@[simp] theorem pk_insertDuplicate {file : Stream} :
    (si.insertDuplicate file p r).pk = si.pk := pk_moveWriteRecord

/-- How inserting a position under a key into a well-formed index may end: the index is well formed
and holds one more value, or it is a primary key, holds the key already and stays as it is. -/
inductive Inserted (si : SequentialIndex κ) (c : List (SequentialIndexRecord κ))
    (m : Multimap κ Int) (k : κ) (v : Int) {α : Type} : Outcome (SequentialIndex κ) α → Prop
  | done {a : α} {si' : SequentialIndex κ} {c' : List (SequentialIndexRecord κ)} :
      (si.pk = true → ∀ x ∈ c, x.data ≠ k) → si'.pk = si.pk → si'.WellFormed c' →
      si'.Contents c' (m.insert k v) → (si.DisjointDuplicates c → si'.DisjointDuplicates c') →
      Inserted si c m k v (.ok a, si')
  | refused {e : Exn} : si.pk = true → (∃ x ∈ c, x.data = k) → Inserted si c m k v (.error e, si)

/-- A new record behind a record. -/
theorem Inserted.after (h : si.WellFormed (c1 ++ p :: c2)) (hm : si.Contents (c1 ++ p :: c2) m)
    (hlt : p.data < r.data) (hgt : ∀ x ∈ c2, r.data < x.data) (hdup : r.dupPos = endOfFile)
    (file : Stream) (hfile : file = p.currentFile.stream) (sih : SequentialIndexHeader) :
    Inserted si (c1 ++ p :: c2) m r.data r.rawPos (.ok (), si.insertAfterRecord file p r sih false) := by
  obtain ⟨c', hwf, hc', hd⟩ := h.insertAfterRecord hm hlt hgt hdup file hfile sih
  refine .done (fun _ x hx => ?_) pk_insertAfterRecord hwf hc' hd
  rcases List.mem_append.1 hx with hx | hx
  · exact ((h.sorted.around.1 x hx).trans hlt).ne
  · rcases List.mem_cons.1 hx with rfl | hx
    · exact hlt.ne
    · exact (hgt x hx).ne'

/-- A duplicate of a record, behind the check of a primary key. -/
theorem Inserted.duplicate (h : si.WellFormed (c1 ++ p :: c2))
    (hm : si.Contents (c1 ++ p :: c2) m) (hk : p.data = r.data) (file : Stream)
    (hfile : file = p.currentFile.stream) :
    Inserted si (c1 ++ p :: c2) m r.data r.rawPos (si.insertDuplicateUnlessPk file p r) := by
  unfold insertDuplicateUnlessPk
  split
  · next hpk => exact .refused hpk ⟨p, by simp, hk⟩
  · next hpk =>
    obtain ⟨c', hwf, hc', hd⟩ := h.insertDuplicate hm hk file hfile
    exact .done (fun hc => absurd hc hpk) pk_insertDuplicate hwf hc' hd

/-- The walk of `insertAux`, in whatever state the files are: what each round keeps of the two
records holds where the walk ends. -/
theorem insertAuxLoop_of_inv {sih : SequentialIndexHeader} {n : Nat}
    {s : SequentialIndexRecord κ × SequentialIndexRecord κ × Stream}
    {out : Outcome (SequentialIndex κ) Unit}
    {I : SequentialIndexRecord κ → SequentialIndexRecord κ → Stream → Prop}
    {Q : Outcome (SequentialIndex κ) Unit → Prop}
    (hstep : ∀ prev cur file, I prev cur file →
      I cur (si.moveReadRecord file cur.nextPos cur).1 (si.moveReadRecord file cur.nextPos cur).2)
    (hdup : ∀ prev cur file, I prev cur file → Q (si.insertDuplicateUnlessPk file cur r))
    (hafter : ∀ prev cur file, I prev cur file →
      Q (.ok (), si.insertAfterRecord file cur r sih false))
    (hbefore : ∀ prev cur file, I prev cur file → r.data < cur.data →
      Q (.ok (), si.insertAfterRecord file prev r sih false))
    (hs : I s.1 s.2.1 s.2.2) (hloop : loop (si.insertAuxBody r sih) n s = some out) : Q out := by
  refine loop_of_inv (I := fun s => I s.1 s.2.1 s.2.2) (Q := Q) ?_ ?_ hs hloop
  · rintro ⟨prev, cur, file⟩ s' hs hbody
    simp only [insertAuxBody] at hbody
    split_ifs at hbody <;> cases hbody
    exact hstep prev cur file hs
  · rintro ⟨prev, cur, file⟩ out hs hbody
    simp only [insertAuxBody] at hbody
    split_ifs at hbody with hfile heq hbetween heq hlt <;> cases hbody
    · exact hdup prev cur file hs
    · exact hbefore prev cur file hs hbetween.2
    · exact hdup prev cur file hs
    · exact hafter prev cur file hs
    · exact hbefore prev cur file hs (lt_of_le_of_ne (not_lt.1 hlt) (Ne.symm heq))

/-- The walk of `insertAux` through a run, with `cur` in front of it and `prev` behind: it comes
back with the record inserted. When the key is between the two, `prev` is an overflow record. -/
theorem insertAuxBody_run (sih : SequentialIndexHeader) {S : List (SequentialIndexRecord κ)}
    (hgt : ∀ x ∈ S, r.data < x.data) (hdup : r.dupPos = endOfFile) :
    ∀ {A P : List (SequentialIndexRecord κ)} {prev cur : SequentialIndexRecord κ},
      si.WellFormed (P ++ prev :: cur :: (A ++ S)) →
      si.Contents (P ++ prev :: cur :: (A ++ S)) m → si.AuxRun cur.link A l' →
      cur.currentFile = .auxFile → prev.data < r.data →
      (r.data < cur.data → prev.currentFile = .auxFile) →
      ∃ res, LoopReturns (fun _ => si.insertAuxBody r sih) (prev, cur, .aux) res ∧
        Inserted si (P ++ prev :: cur :: (A ++ S)) m r.data r.rawPos res
  | A, P, prev, cur, h, hm, hrun, hcf, hlt, hprev => by
    have hfile := hrun.file_eq_iff h.own
    have hstream : Stream.aux = cur.currentFile.stream := by rw [hcf]; rfl
    have hsplit : P ++ prev :: cur :: (A ++ S) = (P ++ [prev]) ++ cur :: (A ++ S) := by simp
    have hsort := h.sorted
    rw [hsplit] at hsort
    have hcurgt := hsort.around.2
    have hdupcase : cur.data = r.data → Inserted si (P ++ prev :: cur :: (A ++ S)) m r.data
        r.rawPos (si.insertDuplicateUnlessPk .aux cur r) := fun heq => by
      rw [hsplit] at h hm ⊢
      exact .duplicate h hm heq _ hstream
    have hprevcase : r.data < cur.data → Inserted si (P ++ prev :: cur :: (A ++ S)) m r.data r.rawPos
        (.ok (), si.insertAfterRecord .aux prev r sih false) := fun hlt' => by
      refine .after h hm hlt (fun x hx => ?_) hdup _ (by rw [hprev hlt']; rfl) sih
      rcases List.mem_cons.1 hx with rfl | hx
      · exact hlt'
      · exact hlt'.trans (hcurgt x hx)
    cases A with
    | nil =>
      have hnext : cur.nextFile = .indexFile := hfile.2 rfl
      rcases lt_trichotomy cur.data r.data with hlt' | heq | hgt'
      · have hins : Inserted si (P ++ prev :: cur :: ([] ++ S)) m r.data r.rawPos
            (.ok (), si.insertAfterRecord .aux cur r sih false) := by
          rw [hsplit] at h hm ⊢
          exact .after h hm hlt' hgt hdup _ hstream sih
        refine ⟨_, .done (.of_eq fun _ => ?_), hins⟩
        simp only [insertAuxBody, hnext, ne_eq, not_true, if_false, if_neg hlt'.ne, if_pos hlt']
      · refine ⟨_, .done (.of_eq fun _ => ?_), hdupcase heq⟩
        simp only [insertAuxBody, hnext, ne_eq, not_true, if_false, if_pos heq]
      · refine ⟨_, .done (.of_eq fun _ => ?_), hprevcase hgt'⟩
        simp only [insertAuxBody, hnext, ne_eq, not_true, if_false, if_neg hgt'.ne',
          if_neg hgt'.not_gt]
    | cons a A =>
      have hnext : cur.nextFile ≠ .indexFile := fun hc => by simpa using hfile.1 hc
      obtain ⟨ha, haf, hrun'⟩ := AuxRun.cons_iff.1 hrun
      rcases lt_trichotomy cur.data r.data with hlt' | heq | hgt'
      · rw [hsplit, List.cons_append] at h hm ⊢
        obtain ⟨res, hret, hins⟩ := insertAuxBody_run sih hgt hdup h hm hrun' haf hlt' fun _ => hcf
        refine ⟨res, .step (.of_eq fun _ => ?_) hret, hins⟩
        have hread : si.moveReadRecord .aux cur.nextPos cur = (a, .aux) :=
          moveReadRecord_aux_of_readLink ha hnext cur
        simp only [insertAuxBody, if_pos hnext, if_neg hlt'.ne,
          if_neg (fun hc : prev.data < r.data ∧ r.data < cur.data => hlt'.not_gt hc.2), hread]
      · refine ⟨_, .done (.of_eq fun _ => ?_), hdupcase heq⟩
        simp only [insertAuxBody, if_pos hnext, if_pos heq]
      · refine ⟨_, .done (.of_eq fun _ => ?_), hprevcase hgt'⟩
        simp only [insertAuxBody, if_pos hnext, if_neg hgt'.ne', if_pos (And.intro hlt hgt')]

/-- The key would go between the header and the overflow record that the header points to. -/
def HeaderMisplaced (si : SequentialIndex κ) (k : κ) : Prop :=
  si.header.nextFile = .auxFile ∧ ∃ x, si.readLink si.header.link = some x ∧ k < x.data

/-- `insertAux` into the run that hangs off a record of the index file. -/
theorem insertAux_record (h : si.WellFormed c) (hm : si.Contents c m)
    {bsr : BinarySearchResponse κ} (hheader : bsr.header = false) (hdup : r.dupPos = endOfFile)
    {P A S : List (SequentialIndexRecord κ)} (hmem : p ∈ si.indexFile)
    (hg : si.Gap c r.data (P ++ [p]) p.link A l' S) (hA : A ≠ []) :
    ∃ res, Returns (si.insertAux · .index p r bsr) res ∧ Inserted si c m r.data r.rawPos res := by
  obtain ⟨a, A, rfl⟩ := List.exists_cons_of_ne_nil hA
  obtain ⟨ha, haf, hrun⟩ := AuxRun.cons_iff.1 hg.run
  have hfile : p.nextFile ≠ .indexFile := fun hc => hA ((hg.run.file_eq_iff h.own).1 hc)
  have hread : si.moveReadRecord .aux p.nextPos default = (a, .aux) :=
    moveReadRecord_aux_of_readLink ha hfile default
  have hpf : p.currentFile = .indexFile := (h.linked.mem_index_iff.1 hmem).2
  have hlt : p.data < r.data := hg.lt p (by simp)
  have hc : c = P ++ p :: a :: (A ++ S) := by rw [hg.eq]; simp
  rw [hc] at h hm ⊢
  by_cases hbetween : r.data < a.data
  · refine ⟨_, .of_eq fun n => ?_, .after h hm hlt (fun x hx => ?_) hdup
      .index (by rw [hpf]; rfl) bsr.sih⟩
    · simp only [insertAux, hheader, Bool.false_eq_true, if_false, hread,
        if_pos (And.intro hlt hbetween)]
    · have hsort := h.sorted
      rw [List.append_cons] at hsort
      rcases List.mem_cons.1 hx with rfl | hx
      · exact hbetween
      · exact hbetween.trans (hsort.around.2 x hx)
  · obtain ⟨res, hret, hins⟩ := insertAuxBody_run bsr.sih hg.gt hdup h hm hrun haf hlt
      fun hc => absurd hc hbetween
    refine ⟨res, hret.returns.congr fun n => ?_, hins⟩
    simp only [insertAux, hheader, Bool.false_eq_true, if_false, hread,
      if_neg (fun hc : p.data < r.data ∧ r.data < a.data => hbetween hc.2)]

/-- `insertAux` into the run that hangs off the header, for a key that does not go in front of
it. -/
theorem insertAux_header (h : si.WellFormed c) (hm : si.Contents c m)
    {bsr : BinarySearchResponse κ} (hheader : bsr.header = true) (hsih : bsr.sih = si.header)
    (hdup : r.dupPos = endOfFile) {A S : List (SequentialIndexRecord κ)}
    (hg : si.Gap c r.data [] si.header.link A l' S) (hA : A ≠ [])
    (hplace : ¬ si.HeaderMisplaced r.data) :
    ∃ res, Returns (si.insertAux · .index p r bsr) res ∧ Inserted si c m r.data r.rawPos res := by
  obtain ⟨a, A, rfl⟩ := List.exists_cons_of_ne_nil hA
  obtain ⟨ha, haf, hrun⟩ := AuxRun.cons_iff.1 hg.run
  have hfile : si.header.nextFile ≠ .indexFile := fun hc =>
    hA ((hg.run.file_eq_iff h.own).1 hc)
  have hread : si.moveReadRecord .aux si.header.nextPos default = (a, .aux) :=
    moveReadRecord_aux_of_readLink ha hfile default
  have hfront : ¬ r.data < a.data := fun hc =>
    hplace ⟨(file_of_readLink ha).resolve_left hfile, a, ha, hc⟩
  have hc : c = [] ++ a :: (A ++ S) := by rw [hg.eq]; simp
  rw [hc] at h hm ⊢
  by_cases heq : r.data = a.data
  · refine ⟨_, .of_eq fun n => ?_, .duplicate h hm heq.symm .aux (by rw [haf]; rfl)⟩
    simp only [insertAux, hheader, if_true, hsih, hread, if_neg hfront, if_pos heq]
  have hlt : a.data < r.data := lt_of_le_of_ne (not_lt.1 hfront) (Ne.symm heq)
  cases A with
  | nil =>
    have hnext : a.nextFile = .indexFile := (hrun.file_eq_iff h.own).2 rfl
    refine ⟨_, .of_eq fun n => ?_, .after h hm hlt hg.gt hdup .aux (by rw [haf]; rfl)
      si.header⟩
    simp only [insertAux, hheader, if_true, hsih, hread, if_neg hfront, if_neg heq, if_pos hnext]
  | cons b A =>
    obtain ⟨hb, hbf, hrun'⟩ := AuxRun.cons_iff.1 hrun
    have hnext : a.nextFile ≠ .indexFile := fun hc => by
      simpa using (hrun.file_eq_iff h.own).1 hc
    have hread' : si.moveReadRecord .aux a.nextPos a = (b, .aux) :=
      moveReadRecord_aux_of_readLink hb hnext a
    obtain ⟨res, hret, hins⟩ := insertAuxBody_run si.header hg.gt hdup h hm hrun' hbf hlt
      fun _ => haf
    refine ⟨res, hret.returns.congr fun n => ?_, hins⟩
    simp only [insertAux, hheader, if_true, hsih, hread, if_neg hfront, if_neg heq,
      if_neg hnext, hread']

/-- Inserting where the binary search has stopped. -/
theorem addAt_returns (h : si.WellFormed c) (hm : si.Contents c m) {bsr : BinarySearchResponse κ}
    (hf : Found si r.data bsr) (hdup : r.dupPos = endOfFile)
    (hplace : ¬ si.HeaderMisplaced r.data) :
    ∃ res, Returns (si.addAt · r bsr) res ∧ Inserted si c m r.data r.rawPos res := by
  have hstream := hf.file_eq
  by_cases hcur : bsr.location = .recCur
  · cases hf with
    | first _ location => rw [location] at hcur; cases hcur
    | prev _ _ location => rw [location] at hcur; cases hcur
    | next _ _ location => rw [location] at hcur; cases hcur
    | cur i hi location header sir data =>
      obtain ⟨hmem, hfile⟩ := h.linked.mem_index_iff.1 (List.getElem_mem hi)
      rw [← sir] at hmem hfile data
      obtain ⟨c1, c2, rfl⟩ := List.append_of_mem hmem
      refine ⟨_, .of_eq fun n => ?_, .duplicate h hm data .index (by rw [hfile]; rfl)⟩
      simp [addAt, location, header, hstream]
  have hne := hf.nonempty
  cases h.linked.gapAt hf hcur with
  | header A S l' location header sih gap next =>
    by_cases hA : A = []
    · have hfile : si.header.nextFile = .indexFile := (gap.run.file_eq_iff h.own).2 hA
      have hgt : ∀ x ∈ c, r.data < x.data := by
        rw [gap.eq, hA]
        exact gap.gt
      obtain ⟨c', hwf, hc', hd⟩ := h.insertAfterRecord_header hm hne hgt hdup bsr.sirPrev
      refine ⟨_, .of_eq fun n => ?_, .done (a := ()) (fun _ x hx => (hgt x hx).ne')
        pk_insertAfterRecord hwf hc' hd⟩
      simp [addAt, location, header, sih, hfile, hstream]
    · have hfile : si.header.nextFile ≠ .indexFile := fun hc =>
        hA ((gap.run.file_eq_iff h.own).1 hc)
      obtain ⟨res, hret, hins⟩ := insertAux_header (p := bsr.sirPrev) h hm header sih hdup gap hA
        hplace
      refine ⟨res, hret.congr fun n => ?_, hins⟩
      simp [addAt, location, header, sih, hfile, hstream]
  | record P A S l' location header mem gap =>
    have hmem := (h.linked.mem_index_iff.1 mem).1
    have hrf := (h.linked.mem_index_iff.1 mem).2
    have hadd : ∀ n, si.addAt n r bsr =
        if (gapRecord bsr).nextFile = .indexFile then
          some (.ok (), si.insertAfterRecord .index (gapRecord bsr) r bsr.sih false)
        else si.insertAux n .index (gapRecord bsr) r bsr := fun n => by
      rcases location with hloc | hloc <;> simp [addAt, gapRecord, hloc, header, hstream]
    by_cases hA : A = []
    · have hfile : (gapRecord bsr).nextFile = .indexFile := (gap.run.file_eq_iff h.own).2 hA
      have hc : c = P ++ gapRecord bsr :: S := by rw [gap.eq, hA]; simp
      rw [hc] at h hm ⊢
      refine ⟨_, .of_eq fun n => ?_, .after h hm (gap.lt _ (by simp)) gap.gt hdup
        .index (by rw [hrf]; rfl) bsr.sih⟩
      rw [hadd, if_pos hfile]
    · have hfile : (gapRecord bsr).nextFile ≠ .indexFile := fun hc =>
        hA ((gap.run.file_eq_iff h.own).1 hc)
      obtain ⟨res, hret, hins⟩ := insertAux_record h hm header hdup mem gap hA
      exact ⟨res, hret.congr fun n => by rw [hadd, if_neg hfile], hins⟩

/-- The end of `add` keeps what has been inserted. -/
theorem addEnd_returns {k : κ} {v : Int} {res : Outcome (SequentialIndex κ) Unit}
    (h : Inserted si c m k v res) (rebuild : Bool) (records : List Int) :
    ∃ res', Returns (addEnd · rebuild records res) res' ∧ Inserted si c m k v res' := by
  cases h with
  | refused hpk hk => exact ⟨_, .of_eq fun _ => rfl, .refused hpk hk⟩
  | @done _ si' c' hnew hpk hwf hm hd =>
    by_cases hre : rebuild ∧ !si'.validNumberRecords
    · obtain ⟨si'', hret, hpk', hwf', hm', hd'⟩ := rebuild_wellFormed hwf.chain hwf.sorted hm
      refine ⟨_, (hret.map (Except.ok records, ·)).congr fun n => ?_,
        .done hnew (hpk'.trans hpk) hwf' hm' fun _ => hd'⟩
      rw [addEnd, if_pos hre]
    · exact ⟨(.ok records, si'), .of_eq fun n => by rw [addEnd, if_neg hre],
        .done hnew hpk hwf hm hd⟩

/-- `add` on a well-formed index, for a key that does not go in front of the overflow record that
the header points to, whether or not it rebuilds the files. -/
theorem add_returns (h : si.WellFormed c) (hm : si.Contents c m) {k : κ} (v : Int)
    (hplace : ¬ si.HeaderMisplaced k) (rebuild : Bool := true) :
    ∃ res, Returns (si.add · k v rebuild) res ∧ Inserted si c m k v res := by
  by_cases he : si.indexFile = []
  · let sir : SequentialIndexRecord κ := { data := k, rawPos := v, dupPos := endOfFile }
    obtain ⟨c', hwf, hc', hd⟩ := h.addFirst hm he (r := sir) rfl
    have hfirst : Inserted si c m k v (.ok (), si.addFirst .index sir) :=
      .done (fun _ x hx => by simp [h.linked.empty he] at hx) rfl hwf hc' fun _ => hd
    obtain ⟨res, hret, hins⟩ := addEnd_returns hfirst rebuild [v, v]
    refine ⟨res, hret.congr fun n => ?_, hins⟩
    rw [add, binarySearch_empty he]
    rfl
  · obtain ⟨bsr, hbs, hf⟩ := binarySearch_found (h.linked.searchable he) k
    obtain ⟨res, hat, hins⟩ := addAt_returns h hm
      (r := { data := k, rawPos := v, dupPos := endOfFile }) hf rfl hplace
    obtain ⟨res', hend, hins'⟩ := addEnd_returns hins rebuild [v]
    refine ⟨res', (hbs.bind (g := fun n bsr => (si.addAt n _ bsr).bind
      (addEnd n rebuild (if bsr.location = .emptyFile then [v, v] else [v]))) ?_), hins'⟩
    refine (hat.bind (g := fun n => addEnd n rebuild [v]) hend).congr fun n => ?_
    rw [if_neg hf.location_ne]

end SequentialIndex

end Rdbms
