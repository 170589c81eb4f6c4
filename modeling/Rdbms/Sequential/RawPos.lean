import Rdbms.Sequential.Insert
import Rdbms.Sequential.BulkInsert
import Rdbms.Sequential.Erase

/-!
# The heap positions in the files

Whatever state the files are in, a record in them has the heap position of a call that has inserted
it, or `0` where the program has made it up: a read that fails leaves a fresh record as it is, and a
header that goes over an overflow record sets its position to `0`. So an index that is only given
positions that are not negative reports no other ones (`Nonneg.remove`).
-/

namespace Rdbms

namespace SequentialIndex
variable {κ : Type} [KeyType κ] {si si' : SequentialIndex κ} {r sir sirPrev : SequentialIndexRecord κ}
  {bsr : BinarySearchResponse κ} {k : κ} {v pos : Int} {file : Stream} {fuel : Nat}

/-- The heap positions in the files are not negative. -/
structure Nonneg (si : SequentialIndex κ) : Prop where
  index : ∀ r ∈ si.indexFile, 0 ≤ r.rawPos
  aux : ∀ r ∈ si.auxFile, 0 ≤ r.rawPos
  duplicates : ∀ r ∈ si.duplicatesFile, 0 ≤ r.rawPos

omit [KeyType κ] in
/-- A new index has no positions. -/
theorem nonneg_createFile (pk : Bool) : (createFile pk : SequentialIndex κ).Nonneg :=
  ⟨List.forall_mem_nil _, List.forall_mem_nil _, List.forall_mem_nil _⟩

namespace Nonneg

/-! ## Reading and writing -/

omit [KeyType κ] in
/-- A read gives a position of the file or leaves the one that the record had. -/
theorem read {L : Layout} {f : List (SequentialIndexRecord κ)} (h : ∀ r ∈ f, 0 ≤ r.rawPos)
    (hr : 0 ≤ r.rawPos) (good : Bool) (pos : Int) :
    0 ≤ (Rdbms.moveReadRecord L f good pos r).1.rawPos := by
  unfold Rdbms.moveReadRecord
  split
  · next hread => exact h _ (Layout.mem_of_read hread)
  · exact hr

omit [KeyType κ] in
/-- A record written over another one, or behind the last one. -/
theorem write {L : Layout} {f : List (SequentialIndexRecord κ)} (h : ∀ r ∈ f, 0 ≤ r.rawPos)
    (hr : 0 ≤ r.rawPos) : ∀ x ∈ L.write f pos r, 0 ≤ x.rawPos := fun x hx =>
  (Layout.mem_write hx).elim (fun heq => heq ▸ hr) (h x)

omit [KeyType κ] in
/-- A record appended. -/
theorem append {f : List (SequentialIndexRecord κ)} (h : ∀ r ∈ f, 0 ≤ r.rawPos)
    (hr : 0 ≤ r.rawPos) : ∀ x ∈ f ++ [r], 0 ≤ x.rawPos := fun x hx =>
  (List.mem_append.1 hx).elim (h x) fun hx => List.mem_singleton.1 hx ▸ hr

omit [KeyType κ] in
/-- A read of the index. -/
theorem moveReadRecord (h : si.Nonneg) (file : Stream) (pos : Int) (hr : 0 ≤ r.rawPos) :
    0 ≤ (si.moveReadRecord file pos r).1.rawPos := by
  obtain ⟨file, good⟩ := file
  cases file with
  | index => exact read h.index hr good pos
  | aux => exact read h.aux hr good pos

omit [KeyType κ] in
/-- A read of the next record, on either stream. -/
theorem moveReadNext (h : si.Nonneg) (files : Streams) (pos : Int) (nextFile : FilePos)
    (hr : 0 ≤ r.rawPos) : 0 ≤ (si.moveReadNext files pos nextFile r).1.rawPos := by
  simp only [SequentialIndex.moveReadNext]
  split_ifs
  · exact h.moveReadRecord _ pos hr
  · exact h.moveReadRecord _ pos hr

omit [KeyType κ] in
/-- A write to the index, made or not. -/
theorem moveWriteRecord (h : si.Nonneg) (file : Stream) (pos : Int) (hr : 0 ≤ r.rawPos) :
    (si.moveWriteRecord file pos r).1.Nonneg := by
  unfold SequentialIndex.moveWriteRecord
  split_ifs
  · split
    · exact ⟨write h.index hr, h.aux, h.duplicates⟩
    · exact ⟨h.index, write h.aux hr, h.duplicates⟩
  · exact h

/-- A header, where it is meant to be or over an overflow record. -/
theorem writeHeader (h : si.Nonneg) (file : Stream) (header : SequentialIndexHeader) :
    (si.writeHeader file header).Nonneg := by
  unfold SequentialIndex.writeHeader
  split_ifs
  · split
    · exact ⟨h.index, h.aux, h.duplicates⟩
    · refine ⟨h.index, fun r hr => ?_, h.duplicates⟩
      have haux := h.aux
      simp only at hr
      cases haf : si.auxFile with
      | nil =>
        rw [haf] at hr
        exact nomatch hr
      | cons x rest =>
        rw [haf, List.modifyHead_cons] at hr
        rcases List.mem_cons.1 hr with rfl | hr
        · exact le_rfl
        · exact haux r (haf ▸ .tail x hr)
  · exact h

/-! ## The binary search -/

/-- The records that a round reads, and those that it keeps. -/
theorem binarySearchRead (h : si.Nonneg) {s : BinarySearchState κ} (mid : Int)
    (hs : 0 ≤ s.sirPrev.rawPos ∧ 0 ≤ s.sirCur.rawPos) :
    0 ≤ (si.binarySearchRead mid s).sirPrev.rawPos ∧
      0 ≤ (si.binarySearchRead mid s).sirCur.rawPos := by
  simp only [SequentialIndex.binarySearchRead, binarySearchReadPrev, binarySearchReadNext]
  split_ifs
  · exact ⟨h.moveReadRecord _ _ hs.1, h.moveReadRecord _ _ hs.2⟩
  · exact ⟨h.moveReadRecord _ _ hs.1, h.moveReadRecord _ _ hs.2⟩
  · exact ⟨hs.1, h.moveReadRecord _ _ hs.2⟩
  · exact ⟨hs.1, h.moveReadRecord _ _ hs.2⟩

/-- One round goes on with records that it has read, or reports them or the ones that it had. -/
theorem binarySearchBody (h : si.Nonneg) {s : BinarySearchState κ}
    {res : BinarySearchState κ ⊕ BinarySearchResponse κ}
    (hs : 0 ≤ s.sirPrev.rawPos ∧ 0 ≤ s.sirCur.rawPos) (hbody : si.binarySearchBody k s = some res) :
    res.elim (fun s' => 0 ≤ s'.sirPrev.rawPos ∧ 0 ≤ s'.sirCur.rawPos)
      fun bsr => 0 ≤ bsr.sirPrev.rawPos ∧ 0 ≤ bsr.sir.rawPos := by
  have hread := h.binarySearchRead ((s.logicalLeft + s.logicalRight) / 2) hs
  by_cases hle : s.logicalLeft ≤ s.logicalRight
  · obtain ⟨res', hbody', hround⟩ := binarySearchBody_round si k hle
    cases hbody.symm.trans hbody'
    cases hround <;> exact hread
  · rw [SequentialIndex.binarySearchBody, if_neg hle] at hbody
    cases hbody
    exact hs

/-- The records that the binary search reports. -/
theorem binarySearch (h : si.Nonneg) (hret : si.binarySearch fuel k = some bsr) :
    0 ≤ bsr.sirPrev.rawPos ∧ 0 ≤ bsr.sir.rawPos := by
  unfold SequentialIndex.binarySearch at hret
  split_ifs at hret
  · cases hret
    exact ⟨le_rfl, le_rfl⟩
  · refine loop_of_inv (I := fun s => 0 ≤ s.sirPrev.rawPos ∧ 0 ≤ s.sirCur.rawPos)
      (Q := fun bsr => 0 ≤ bsr.sirPrev.rawPos ∧ 0 ≤ bsr.sir.rawPos) ?_ ?_ ⟨le_rfl, le_rfl⟩ hret
    · intro s s' hs hbody
      exact h.binarySearchBody hs hbody
    · intro s bsr hs hbody
      exact h.binarySearchBody hs hbody

/-! ## Insertion -/

/-- A new record behind the header or behind a record. -/
theorem insertAfterRecord (h : si.Nonneg) (file : Stream) (hprev : 0 ≤ sirPrev.rawPos)
    (hr : 0 ≤ sir.rawPos) (sih : SequentialIndexHeader) (header : Bool) :
    (si.insertAfterRecord file sirPrev sir sih header).Nonneg := by
  have hins : ∀ x : SequentialIndexRecord κ, 0 ≤ x.rawPos → (si.insertAuxFile x).1.Nonneg :=
    fun x hx => ⟨h.index, append h.aux hx, h.duplicates⟩
  unfold SequentialIndex.insertAfterRecord
  split_ifs
  · exact (hins (sir.setNext sih.nextPos sih.nextFile) hr).writeHeader file _
  · exact (hins (sir.setNext sirPrev.nextPos sirPrev.nextFile) hr).moveWriteRecord file _ hprev

omit [KeyType κ] in
/-- A new duplicate. -/
theorem insertDuplicate (h : si.Nonneg) (file : Stream) (hr : 0 ≤ r.rawPos) (hsir : 0 ≤ sir.rawPos) :
    (si.insertDuplicate file r sir).Nonneg := by
  have hdup : ({ si with
      duplicatesFile := si.duplicatesFile ++ [sir.setDupPos r.dupPos] } : SequentialIndex κ).Nonneg :=
    ⟨h.index, h.aux, append h.duplicates hsir⟩
  exact hdup.moveWriteRecord file _ hr

omit [KeyType κ] in
/-- Behind the check of the primary key. -/
theorem insertDuplicateUnlessPk (h : si.Nonneg) (file : Stream) (hr : 0 ≤ r.rawPos)
    (hsir : 0 ≤ sir.rawPos) : (si.insertDuplicateUnlessPk file r sir).2.Nonneg := by
  unfold SequentialIndex.insertDuplicateUnlessPk
  split_ifs
  · exact h
  · exact h.insertDuplicate file hr hsir

/-- The walk through the overflow file. -/
theorem insertAuxLoop (h : si.Nonneg) (hsir : 0 ≤ sir.rawPos) (sih : SequentialIndexHeader)
    {s : SequentialIndexRecord κ × SequentialIndexRecord κ × Stream}
    (hs : 0 ≤ s.1.rawPos ∧ 0 ≤ s.2.1.rawPos) {out : Outcome (SequentialIndex κ) Unit}
    (hloop : loop (si.insertAuxBody sir sih) fuel s = some out) : out.2.Nonneg := by
  refine insertAuxLoop_of_inv (I := fun prev cur _ => 0 ≤ prev.rawPos ∧ 0 ≤ cur.rawPos)
    (Q := fun out => out.2.Nonneg) ?_ ?_ ?_ ?_ hs hloop
  · intro prev cur file hs
    exact ⟨hs.2, h.moveReadRecord file _ hs.2⟩
  · intro prev cur file hs
    exact h.insertDuplicateUnlessPk file hs.2 hsir
  · intro prev cur file hs
    exact h.insertAfterRecord file hs.2 hsir sih false
  · intro prev cur file hs _
    exact h.insertAfterRecord file hs.1 hsir sih false

/-- An insertion into an overflow chain. -/
theorem insertAux (h : si.Nonneg) (hinit : 0 ≤ r.rawPos) (hsir : 0 ≤ sir.rawPos)
    {out : Outcome (SequentialIndex κ) Unit} (hret : si.insertAux fuel file r sir bsr = some out) :
    out.2.Nonneg := by
  have hread : ∀ p, 0 ≤ (si.moveReadRecord .aux p (default : SequentialIndexRecord κ)).1.rawPos :=
    fun p => h.moveReadRecord .aux p le_rfl
  simp only [SequentialIndex.insertAux] at hret
  split_ifs at hret
  · cases hret
    exact h.insertAfterRecord _ hinit hsir bsr.sih true
  · cases hret
    exact h.insertDuplicateUnlessPk _ (hread _) hsir
  · cases hret
    exact h.insertAfterRecord _ (hread _) hsir bsr.sih false
  · exact h.insertAuxLoop hsir bsr.sih ⟨hread _, h.moveReadRecord _ _ (hread _)⟩ hret
  · cases hret
    exact h.insertAfterRecord file hinit hsir bsr.sih false
  · exact h.insertAuxLoop hsir bsr.sih ⟨hinit, hread _⟩ hret

/-- The branches of `add`. -/
theorem addAt (h : si.Nonneg) (hb : 0 ≤ bsr.sirPrev.rawPos ∧ 0 ≤ bsr.sir.rawPos)
    (hsir : 0 ≤ sir.rawPos) {out : Outcome (SequentialIndex κ) Unit}
    (hret : si.addAt fuel sir bsr = some out) : out.2.Nonneg := by
  unfold SequentialIndex.addAt at hret
  split at hret
  · cases hret
    exact (h.writeHeader _ _).moveWriteRecord _ _ hsir
  · split_ifs at hret
    · cases hret
      exact h.insertAfterRecord _ hb.1 hsir bsr.sih true
    · exact h.insertAux hb.1 hsir hret
    · cases hret
      exact h.insertAfterRecord _ hb.1 hsir bsr.sih false
    · exact h.insertAux hb.1 hsir hret
    · cases hret
      exact h.insertDuplicateUnlessPk _ hb.2 hsir
    · cases hret
      exact h.insertAfterRecord _ hb.2 hsir bsr.sih false
    · exact h.insertAux hb.2 hsir hret

/-! ## Rebuild -/

/-- What `rebuild` has written. -/
def NonnegState (s : RebuildState κ) : Prop :=
  0 ≤ s.sir.rawPos ∧ 0 ≤ s.sirDup.rawPos ∧ (∀ r ∈ s.newIndexFile, 0 ≤ r.rawPos) ∧
    ∀ r ∈ s.newDuplicatesFile, 0 ≤ r.rawPos

/-- Copying the duplicates of a record. -/
theorem rebuildDuplicates (h : si.Nonneg) {s s' : RebuildState κ} (hs : NonnegState s)
    (hret : si.rebuildDuplicates fuel s = some s') : NonnegState s' := by
  unfold SequentialIndex.rebuildDuplicates at hret
  split_ifs at hret
  · obtain ⟨out, hloop, rfl⟩ := Option.map_eq_some_iff.1 hret
    let I : SequentialIndexRecord κ × Bool × List (SequentialIndexRecord κ) → Prop :=
      fun s => 0 ≤ s.1.rawPos ∧ ∀ r ∈ s.2.2, 0 ≤ r.rawPos
    have hout : I out := by
      refine loop_of_inv (I := I) (Q := I) ?_ ?_
        ⟨read h.duplicates hs.2.1 s.good _, hs.2.2.2⟩ hloop
      · rintro ⟨sirDup, good, new⟩ t hs hbody
        simp only [rebuildDuplicatesBody] at hbody
        split_ifs at hbody <;> cases hbody
        refine ⟨read h.duplicates ?_ good _, append hs.2 ?_⟩
        · exact hs.1
        · exact hs.1
      · rintro ⟨sirDup, good, new⟩ t hs hbody
        simp only [rebuildDuplicatesBody] at hbody
        split_ifs at hbody <;> cases hbody
        exact ⟨hs.1, append hs.2 hs.1⟩
    exact ⟨hs.1, hout.1, hs.2.2.1, hout.2⟩
  · cases hret
    exact hs

/-- One round of `rebuild`. -/
theorem rebuildBody (h : si.Nonneg) {s : RebuildState κ} (hs : NonnegState s)
    {res : RebuildState κ ⊕ RebuildState κ} (hbody : si.rebuildBody fuel s = some res) :
    ∃ s', (res = .inl s' ∨ res = .inr s') ∧ NonnegState s' := by
  obtain ⟨s1, hdups, rfl⟩ := Option.map_eq_some_iff.1 hbody
  obtain ⟨hsir, hdup, hindex, hnew⟩ := h.rebuildDuplicates hs hdups
  simp only [rebuildRecord]
  split_ifs
  · exact ⟨_, .inr rfl, hsir, hdup, append hindex hsir, hnew⟩
  · exact ⟨_, .inl rfl, h.moveReadNext _ _ _ hsir, hdup, append hindex hsir, hnew⟩

/-- The new files. -/
theorem rebuild (h : si.Nonneg) (hret : si.rebuild fuel = some si') : si'.Nonneg := by
  unfold SequentialIndex.rebuild at hret
  by_cases hne : si.header.nextPos ≠ endOfFile
  · rw [if_pos hne] at hret
    obtain ⟨s, hloop, rfl⟩ := Option.map_eq_some_iff.1 hret
    have hfirst : 0 ≤ (si.moveReadNext {} si.header.nextPos si.header.nextFile default).1.rawPos :=
      h.moveReadNext {} _ _ le_rfl
    have hs : NonnegState s := by
      refine loop_of_inv (I := NonnegState) (Q := NonnegState) ?_ ?_
        ⟨hfirst, le_rfl, List.forall_mem_nil _, List.forall_mem_nil _⟩ hloop
      · intro s s' hs hbody
        obtain ⟨s1, heq | heq, hs1⟩ := h.rebuildBody hs hbody
        · cases heq
          exact hs1
        · cases heq
      · intro s s' hs hbody
        obtain ⟨s1, heq | heq, hs1⟩ := h.rebuildBody hs hbody
        · cases heq
        · cases heq
          exact hs1
    exact ⟨hs.2.2.1, List.forall_mem_nil _, hs.2.2.2⟩
  · rw [if_neg hne] at hret
    cases hret
    exact ⟨List.forall_mem_nil _, List.forall_mem_nil _, List.forall_mem_nil _⟩

/-- The end of `add`. -/
theorem addEnd (h : si.Nonneg) {rebuild : Bool} {records : List Int} {res : Except Exn Unit}
    {out : Outcome (SequentialIndex κ) (List Int)}
    (hret : SequentialIndex.addEnd fuel rebuild records (res, si) = some out) : out.2.Nonneg := by
  cases res with
  | error e =>
    cases hret
    exact h
  | ok u =>
    simp only [SequentialIndex.addEnd] at hret
    split_ifs at hret
    · obtain ⟨si', hre, rfl⟩ := Option.map_eq_some_iff.1 hret
      exact h.rebuild hre
    · cases hret
      exact h

/-- `add` with a position that is not negative. -/
theorem add (h : si.Nonneg) (hv : 0 ≤ v) {rebuild : Bool}
    {out : Outcome (SequentialIndex κ) (List Int)} (hret : si.add fuel k v rebuild = some out) :
    out.2.Nonneg := by
  unfold SequentialIndex.add at hret
  obtain ⟨bsr, hbsr, hret⟩ := Option.bind_eq_some_iff.1 hret
  obtain ⟨⟨res, si1⟩, hat, hret⟩ := Option.bind_eq_some_iff.1 hret
  have h1 : si1.Nonneg := h.addAt (h.binarySearch hbsr) hv hat
  exact h1.addEnd hret

/-! ## Loading -/

/-- A round of `bulk_insert`. -/
theorem bulkNext {s : BulkState κ} (h : s.si.Nonneg) (hprev : 0 ≤ s.sirPrev.rawPos)
    {record : κ × Int} (hv : 0 ≤ record.2) :
    (SequentialIndex.bulkNext s record).si.Nonneg ∧
      0 ≤ (SequentialIndex.bulkNext s record).sirPrev.rawPos := by
  simp only [SequentialIndex.bulkNext]
  split_ifs
  · exact ⟨h.insertDuplicate .index hprev hv, hprev⟩
  · refine ⟨moveWriteRecord (moveWriteRecord h .index _ ?_) .index _ ?_, hv⟩
    · exact hprev
    · exact hv

/-- A batch of positions that are not negative. -/
theorem bulkInsert (h : si.Nonneg) {sort : List (κ × Int) → List (κ × Int)}
    (hsort : ∀ l, (sort l).Perm l) {records : List (κ × Int)} (hv : ∀ p ∈ records, 0 ≤ p.2) :
    (si.bulkInsert sort records).2.Nonneg := by
  have hfold : ∀ (records : List (κ × Int)) (s : BulkState κ), s.si.Nonneg →
      0 ≤ s.sirPrev.rawPos → (∀ p ∈ records, 0 ≤ p.2) →
      (records.foldl SequentialIndex.bulkNext s).si.Nonneg := by
    intro records
    induction records with
    | nil => exact fun s hs _ _ => hs
    | cons record records ih =>
      intro s hs hprev hall
      obtain ⟨hs', hprev'⟩ := bulkNext hs hprev (hall record (.head _))
      exact ih _ hs' hprev' fun p hp => hall p (.tail _ hp)
  have hload : ∀ l : List (κ × Int), (∀ p ∈ l, 0 ≤ p.2) → ∀ si : SequentialIndex κ, si.Nonneg →
      (si.bulkLoad l).Nonneg := by
    intro l hl si hsi
    cases l with
    | nil => exact hsi
    | cons record records =>
      have hr := hl record (.head _)
      exact hfold records _ (hsi.moveWriteRecord .index _ hr) hr fun p hp => hl p (.tail _ hp)
  unfold SequentialIndex.bulkInsert
  split_ifs
  · exact h
  · exact hload _ (fun p hp => hv p ((hsort records).subset hp)) _ (h.writeHeader .index _)
  · exact h

/-! ## Removal -/

/-- The positions that `erase` reports for a record of the index file. -/
theorem eraseCur (h : 0 ≤ bsr.sir.rawPos) {out : List Int × SequentialIndex κ}
    (hret : si.eraseCur fuel bsr = some out) : ∀ p ∈ out.1, 0 ≤ p := by
  have hone : ∀ p ∈ [bsr.sir.rawPos], 0 ≤ p := fun p hp => List.mem_singleton.1 hp ▸ h
  simp only [SequentialIndex.eraseCur] at hret
  split_ifs at hret
  · cases hret
    exact hone
  · obtain ⟨sirCur, -, rfl⟩ := Option.map_eq_some_iff.1 hret
    exact hone
  · cases hret
    exact hone
  · obtain ⟨sirCur, -, rfl⟩ := Option.map_eq_some_iff.1 hret
    exact hone

/-- The walk through an overflow chain. -/
theorem eraseAuxLoop (h : si.Nonneg)
    {s : SequentialIndexRecord κ × SequentialIndexRecord κ × Stream} (hs : 0 ≤ s.2.1.rawPos)
    {out : List Int × SequentialIndex κ} (hloop : loop (si.eraseAuxBody file k) fuel s = some out) :
    ∀ p ∈ out.1, 0 ≤ p := by
  refine loop_of_inv (I := fun s : SequentialIndexRecord κ × SequentialIndexRecord κ × Stream =>
    0 ≤ s.2.1.rawPos) (Q := fun out => ∀ p ∈ out.1, 0 ≤ p) ?_ ?_ hs hloop
  · rintro ⟨sirPrev, sirCur, auxFile⟩ s' hs hbody
    simp only [eraseAuxBody] at hbody
    split_ifs at hbody <;> cases hbody
    exact h.moveReadRecord auxFile _ hs
  · rintro ⟨sirPrev, sirCur, auxFile⟩ out hs hbody
    simp only [eraseAuxBody] at hbody
    split_ifs at hbody <;> cases hbody
    · exact fun p hp => List.mem_singleton.1 hp ▸ hs
    · exact fun p hp => List.mem_singleton.1 hp ▸ hs
    · exact List.forall_mem_nil _

omit [KeyType κ] in
/-- The record that is read across has the position `0`. -/
theorem acrossRecord_rawPos [KeyType κ]
    (across : Option (SequentialIndexHeader × Option (SequentialIndexRecord κ))) :
    (acrossRecord across).rawPos = 0 := by
  unfold acrossRecord
  split <;> rfl

/-- The positions that `erase` reports for the overflow chain of the header. -/
theorem eraseHeader (h : si.Nonneg) {first : Int} {out : List Int × SequentialIndex κ}
    (hret : si.eraseHeader fuel file k first = some out) : ∀ p ∈ out.1, 0 ≤ p := by
  simp only [SequentialIndex.eraseHeader] at hret
  generalize (if file.good = true then si.readAcross first else none) = across at hret
  split_ifs at hret
  · cases hret
    exact List.forall_mem_nil _
  · cases hret
    exact List.forall_mem_nil _
  · exact h.eraseAuxLoop (h.moveReadRecord .aux _ (acrossRecord_rawPos _).ge) hret

/-- The positions that `erase` reports. -/
theorem erase (h : si.Nonneg) {out : List Int × SequentialIndex κ}
    (hret : si.erase fuel k = some out) : ∀ p ∈ out.1, 0 ≤ p := by
  obtain ⟨bsr, hbsr, hat⟩ := Option.bind_eq_some_iff.1 hret
  have hb := h.binarySearch hbsr
  unfold eraseAt at hat
  split at hat
  · cases hat
    exact List.forall_mem_nil _
  · exact eraseCur hb.2 hat
  · split_ifs at hat
    · cases hat
      exact List.forall_mem_nil _
    · exact h.eraseHeader hat
    · exact h.eraseAuxLoop (h.moveReadRecord .aux _ le_rfl) hat
    · exact h.eraseAuxLoop (h.moveReadRecord .aux _ le_rfl) hat

/-- The positions that `remove` reports. -/
theorem remove (h : si.Nonneg) {out : List Int × SequentialIndex κ}
    (hret : si.remove fuel k = some out) : ∀ p ∈ out.1, 0 ≤ p := by
  unfold SequentialIndex.remove at hret
  obtain ⟨⟨records, si1⟩, herase, hret⟩ := Option.bind_eq_some_iff.1 hret
  have hrecords := h.erase herase
  simp only at hret
  split_ifs at hret
  · cases hret
    exact hrecords
  · obtain ⟨si2, -, rfl⟩ := Option.map_eq_some_iff.1 hret
    exact hrecords

end Nonneg

end SequentialIndex

end Rdbms
