import Rdbms.Sequential.Machine

/-!
# The files after a rebuild

What `rebuild` writes is a function of the chain with its duplicates (`rebuild_eq`): the records one
after the other with new positions (`relabel`). So the new files depend on the keys and their
positions alone, however the index has come to hold them (`files_of_rebuild`), apart from the fields
of a duplicate that only a copy ever reads, and a second `rebuild` writes what is there
(`rebuild_packed`).
-/

namespace Rdbms

namespace SequentialIndex
variable {κ : Type}

/-- The duplicates of a record in the new file, the first one in its place `n`. -/
def relabelDups : Nat → List (SequentialIndexRecord κ) → List (SequentialIndexRecord κ)
  | _, [] => []
  | n, d :: dups =>
    (d.setCurrent (duplicatesLayout.pos n) .dupFile).setDupPos
      (if dups.isEmpty then endOfFile else duplicatesLayout.pos (n + 1)) :: relabelDups (n + 1) dups

/-- The records of a chain with their duplicates in the new files, the first record in the place `i`
and the first duplicate in the place `n`. -/
def relabel : Nat → Nat → List (SequentialIndexRecord κ × List (SequentialIndexRecord κ)) →
    List (SequentialIndexRecord κ × List (SequentialIndexRecord κ))
  | _, _, [] => []
  | i, n, (r, dups) :: l =>
    (((r.setDupPos (if dups.isEmpty then endOfFile else duplicatesLayout.pos n)).setCurrent
        (indexLayout.pos i) .indexFile).setNext
        (if l.isEmpty then endOfFile else indexLayout.pos (i + 1)) .indexFile, relabelDups n dups) ::
      relabel (i + 1) (n + dups.length) l

/-- The files with these records and no others. -/
def packed (pk : Bool) (l : List (SequentialIndexRecord κ × List (SequentialIndexRecord κ))) :
    SequentialIndex κ where
  pk := pk
  header := ⟨if l.isEmpty then endOfFile else sequentialHeaderSize, .indexFile⟩
  indexFile := (relabel 0 0 l).map (·.1)
  auxFile := []
  duplicatesFile := (relabel 0 0 l).flatMap (·.2)

variable {l l' : List (SequentialIndexRecord κ × List (SequentialIndexRecord κ))}
  {dups : List (SequentialIndexRecord κ)} {i n : Nat} {pk : Bool}

/-- The duplicates keep their number. -/
@[simp] theorem length_relabelDups : (relabelDups n dups).length = dups.length := by
  induction dups generalizing n with
  | nil => rfl
  | cons d dups ih => rw [relabelDups, List.length_cons, ih, List.length_cons]

/-- No duplicates are left exactly when there were none. -/
@[simp] theorem isEmpty_relabelDups : (relabelDups n dups).isEmpty = dups.isEmpty := by
  cases dups <;> rfl

/-- No records are left exactly when there were none. -/
@[simp] theorem isEmpty_relabel : (relabel i n l).isEmpty = l.isEmpty := by
  cases l <;> rfl

/-- Duplicates that have their places keep them. -/
theorem relabelDups_relabelDups : relabelDups n (relabelDups n dups) = relabelDups n dups := by
  induction dups generalizing n with
  | nil => rfl
  | cons d dups ih =>
    rw [relabelDups, relabelDups, ih, isEmpty_relabelDups]
    rfl

/-- Records that have their places keep them. -/
theorem relabel_relabel : relabel i n (relabel i n l) = relabel i n l := by
  induction l generalizing i n with
  | nil => rfl
  | cons p l ih =>
    obtain ⟨r, dups⟩ := p
    rw [relabel, relabel, relabelDups_relabelDups, isEmpty_relabelDups, isEmpty_relabel,
      length_relabelDups, ih]
    rfl

/-- So the files of the relabelled records are the files of the records. -/
theorem packed_relabel : packed pk (relabel 0 0 l) = packed pk l := by
  simp only [packed, relabel_relabel, isEmpty_relabel]

/-! ## What `rebuild` writes -/

section
variable [KeyType κ] {si : SequentialIndex κ} {r : SequentialIndexRecord κ} {f : FilePos}

omit [KeyType κ] in
/-- Copying a chain of duplicates appends it with its new positions. -/
theorem rebuildDuplicatesBody_eq (new : List (SequentialIndexRecord κ))
    (h : DupChain duplicatesLayout si.duplicatesFile r.dupPos dups) :
    ∃ d', LoopReturns (fun _ => si.rebuildDuplicatesBody) (r, true, new)
      (d', true, new ++ relabelDups new.length (r :: dups)) := by
  induction dups generalizing r new with
  | nil =>
    have hend : r.dupPos = endOfFile := Path.nil_iff.1 h
    refine ⟨(r.setCurrent (duplicatesLayout.endPos new) .dupFile).setDupPos endOfFile,
      .done (.of_eq fun _ => ?_)⟩
    simp only [rebuildDuplicatesBody, if_pos hend]
    rfl
  | cons d dups ih =>
    obtain ⟨hd, hdups⟩ := Path.cons_iff.1 h
    have hne : r.dupPos ≠ endOfFile := Layout.ne_neg_one_of_read hd
    let r' := (r.setCurrent (duplicatesLayout.endPos new) .dupFile).setDupPos
      (duplicatesLayout.endPos new + sequentialIndexSize)
    have hnext : duplicatesLayout.pos (new.length + 1) =
        duplicatesLayout.endPos new + sequentialIndexSize := Layout.pos_succ
    obtain ⟨d', hrest⟩ := ih (new ++ [r']) hdups
    rw [List.length_append, List.append_assoc] at hrest
    refine ⟨d', .step (t := (d, true, new ++ [r'])) (.of_eq fun _ => ?_) ?_⟩
    · have hread : Rdbms.moveReadRecord duplicatesLayout si.duplicatesFile true r.dupPos r' =
          (d, true) := moveReadRecord_of_read hd
      simp only [rebuildDuplicatesBody, if_neg hne]
      exact congrArg (fun x => some (Sum.inl (x.1, x.2, new ++ [r']))) hread
    · rw [relabelDups, List.isEmpty_cons, if_neg Bool.false_ne_true, hnext]
      exact hrest

/-- The duplicates of a record, and its new `dup_pos`. -/
theorem rebuildDuplicates_eq (d : SequentialIndexRecord κ)
    (newIndex new : List (SequentialIndexRecord κ))
    (h : DupChain duplicatesLayout si.duplicatesFile r.dupPos dups) :
    ∃ d', Returns (si.rebuildDuplicates · ⟨r, d, {}, true, newIndex, new⟩)
      ⟨r.setDupPos (if dups.isEmpty then endOfFile else duplicatesLayout.pos new.length), d', {},
        true, newIndex, new ++ relabelDups new.length dups⟩ := by
  cases dups with
  | nil =>
    have hend : r.dupPos = endOfFile := Path.nil_iff.1 h
    refine ⟨d, .of_eq fun n => ?_⟩
    rw [rebuildDuplicates, if_neg (not_not_intro hend), relabelDups, List.append_nil,
      List.isEmpty_nil, if_pos rfl, ← hend]
    rfl
  | cons d1 dups =>
    obtain ⟨hd, hdups⟩ := Path.cons_iff.1 h
    obtain ⟨d', hloop⟩ := rebuildDuplicatesBody_eq new hdups
    refine ⟨d', (hloop.returns.map fun x =>
      (⟨r.setDupPos (duplicatesLayout.endPos new), x.1, {}, x.2.1, newIndex, x.2.2⟩ :
        RebuildState κ)).congr fun n => ?_⟩
    rw [rebuildDuplicates, if_pos (Layout.ne_neg_one_of_read hd)]
    simp only [moveReadRecord_of_read hd]

/-- Copying the rest of a chain. -/
theorem rebuildBody_eq (d : SequentialIndexRecord κ) (newIndex new : List (SequentialIndexRecord κ))
    (hpath : Path si.readLink (·.link) r.link (l.map (·.1)) (endOfFile, f))
    (hdups : ∀ p ∈ (r, dups) :: l, DupChain duplicatesLayout si.duplicatesFile p.1.dupPos p.2) :
    ∃ sir d', LoopReturns si.rebuildBody ⟨r, d, {}, true, newIndex, new⟩
      ⟨sir, d', {}, true,
        newIndex ++ (relabel newIndex.length new.length ((r, dups) :: l)).map (·.1),
        new ++ (relabel newIndex.length new.length ((r, dups) :: l)).flatMap (·.2)⟩ := by
  induction l generalizing r dups d newIndex new with
  | nil =>
    obtain ⟨d', hret⟩ := rebuildDuplicates_eq d newIndex new (hdups _ (.head _))
    generalize hpos : (if dups.isEmpty then endOfFile else duplicatesLayout.pos new.length) = pos
      at hret
    have hend : (r.setDupPos pos).nextPos = endOfFile := (Prod.ext_iff.1 (Path.nil_iff.1 hpath)).1
    let r' := ((r.setDupPos pos).setCurrent (indexLayout.endPos newIndex) .indexFile).setNext
      endOfFile .indexFile
    have hrec : si.rebuildRecord
        ⟨r.setDupPos pos, d', {}, true, newIndex, new ++ relabelDups new.length dups⟩ =
          .inr ⟨r', d', {}, true, newIndex ++ [r'], new ++ relabelDups new.length dups⟩ := by
      simp only [rebuildRecord, if_pos hend]
      rfl
    refine ⟨r', d', .done ?_⟩
    rw [relabel, relabel, hpos, List.flatMap_singleton, List.map_singleton]
    exact hrec ▸ hret.map _
  | cons p l ih =>
    obtain ⟨x, dups'⟩ := p
    obtain ⟨d', hret⟩ := rebuildDuplicates_eq d newIndex new (hdups _ (.head _))
    generalize hpos : (if dups.isEmpty then endOfFile else duplicatesLayout.pos new.length) = pos
      at hret
    obtain ⟨hx, hpath⟩ := Path.cons_iff.1 hpath
    have hne : (r.setDupPos pos).nextPos ≠ endOfFile := ne_endOfFile_of_readLink hx
    let r' := ((r.setDupPos pos).setCurrent (indexLayout.endPos newIndex) .indexFile).setNext
      (indexLayout.endPos newIndex + sequentialIndexSize) .indexFile
    have hread : ∀ y, si.moveReadNext {} (r.setDupPos pos).nextPos (r.setDupPos pos).nextFile y =
        (x, {}) := moveReadNext_of_readLink hx
    have hrec : si.rebuildRecord
        ⟨r.setDupPos pos, d', {}, true, newIndex, new ++ relabelDups new.length dups⟩ =
          .inl ⟨x, d', {}, true, newIndex ++ [r'], new ++ relabelDups new.length dups⟩ := by
      simp only [rebuildRecord, if_neg hne, hread]
      rfl
    have hnext : indexLayout.pos (newIndex.length + 1) =
        indexLayout.endPos newIndex + sequentialIndexSize := Layout.pos_succ
    obtain ⟨sir, d'', hloop⟩ := ih d' (newIndex ++ [r']) (new ++ relabelDups new.length dups) hpath
      fun q hq => hdups q (.tail _ hq)
    rw [List.length_append, List.length_append, length_relabelDups, List.length_singleton,
      List.append_assoc, List.append_assoc] at hloop
    have hround := hret.map si.rebuildRecord
    rw [hrec] at hround
    refine ⟨sir, d'', .step hround ?_⟩
    rw [relabel, hpos, List.isEmpty_cons, if_neg Bool.false_ne_true, hnext]
    exact hloop

/-- `rebuild` of a chain with its duplicates. -/
theorem rebuild_eq (hpath : Path si.readLink (·.link) si.header.link (l.map (·.1)) (endOfFile, f))
    (hdups : ∀ p ∈ l, DupChain duplicatesLayout si.duplicatesFile p.1.dupPos p.2) :
    Returns si.rebuild (packed si.pk l) := by
  cases l with
  | nil =>
    have hend : si.header.nextPos = endOfFile := (Prod.ext_iff.1 (Path.nil_iff.1 hpath)).1
    refine .of_eq fun n => ?_
    rw [rebuild, if_neg (not_not_intro hend)]
    rfl
  | cons p l =>
    obtain ⟨r, dups⟩ := p
    obtain ⟨hr, hpath⟩ := Path.cons_iff.1 hpath
    have hne : si.header.nextPos ≠ endOfFile := ne_endOfFile_of_readLink hr
    have hread : si.moveReadNext {} si.header.nextPos si.header.nextFile default = (r, {}) :=
      moveReadNext_of_readLink hr default
    obtain ⟨sir, d, hloop⟩ := rebuildBody_eq default [] [] hpath hdups
    refine (hloop.returns.map fun s : RebuildState κ => (⟨si.pk,
      ⟨sequentialHeaderSize, .indexFile⟩, s.newIndexFile, [], s.newDuplicatesFile⟩ :
      SequentialIndex κ)).congr fun n => ?_
    rw [rebuild, if_pos hne]
    simp only [hread]

/-! ## A second rebuild -/

omit [KeyType κ] in
/-- The relabelled records are in physical order. -/
theorem renumbered_relabel : Renumbered i ((relabel i n l).map (·.1)) := by
  induction l generalizing i n with
  | nil => trivial
  | cons p l ih =>
    refine ⟨rfl, ?_, ih⟩
    rw [List.isEmpty_map, isEmpty_relabel]
    cases l with
    | nil => rfl
    | cons q l => rfl

omit [KeyType κ] in
/-- The duplicates of a record stand in a chain, whatever stands around them. -/
theorem dupChain_relabelDups (pre post : List (SequentialIndexRecord κ)) :
    DupChain duplicatesLayout (pre ++ (relabelDups pre.length dups ++ post))
      (if dups.isEmpty then endOfFile else duplicatesLayout.pos pre.length)
      (relabelDups pre.length dups) := by
  induction dups generalizing pre with
  | nil => exact .nil
  | cons d dups ih =>
    rw [List.isEmpty_cons, if_neg Bool.false_ne_true, relabelDups]
    refine .cons ?_ ?_
    · rw [Layout.read_pos, List.getElem?_append_right le_rfl, Nat.sub_self]
      rfl
    · have hrest := ih (pre ++ [(d.setCurrent (duplicatesLayout.pos pre.length) .dupFile).setDupPos
        (if dups.isEmpty then endOfFile else duplicatesLayout.pos (pre.length + 1))])
      rw [List.length_append, List.length_singleton, List.append_assoc] at hrest
      exact hrest

omit [KeyType κ] in
/-- Each relabelled record has its duplicates in the new file. -/
theorem dupChain_relabel (pre : List (SequentialIndexRecord κ)) :
    ∀ p ∈ relabel i pre.length l, DupChain duplicatesLayout
      (pre ++ (relabel i pre.length l).flatMap (·.2)) p.1.dupPos p.2 := by
  induction l generalizing i pre with
  | nil => exact fun p hp => absurd hp List.not_mem_nil
  | cons q l ih =>
    obtain ⟨r, dups⟩ := q
    rw [relabel, List.flatMap_cons]
    refine List.forall_mem_cons.2 ⟨dupChain_relabelDups pre _, fun p hp => ?_⟩
    have hrest := ih (i := i + 1) (pre ++ relabelDups pre.length dups)
    rw [List.length_append, length_relabelDups, List.append_assoc] at hrest
    exact hrest p hp

/-- `rebuild` writes its own files again. -/
theorem rebuild_packed (pk : Bool)
    (l : List (SequentialIndexRecord κ × List (SequentialIndexRecord κ))) :
    Returns (packed pk l).rebuild (packed pk l) := by
  have hpath : Path (packed pk l).readLink (·.link) (packed pk l).header.link
      ((relabel 0 0 l).map (·.1)) endLink := by
    cases l with
    | nil => exact .nil
    | cons p l =>
      have hnum : Renumbered 0 ((relabel 0 0 (p :: l)).map (·.1)) := renumbered_relabel
      refine hnum.path (List.cons_ne_nil _ _) fun j hj => ?_
      rw [Nat.zero_add]
      exact List.getElem?_eq_getElem hj
  have h : Returns (packed pk l).rebuild (packed pk (relabel 0 0 l)) :=
    rebuild_eq hpath (dupChain_relabel [])
  rwa [packed_relabel] at h

/-! ## Files of one content -/

/-- The entry of a record with its duplicates. -/
def entryOf (p : SequentialIndexRecord κ × List (SequentialIndexRecord κ)) : Entry κ Int :=
  ⟨p.1.data, p.1.rawPos, p.2.map (·.rawPos)⟩

/-- What a duplicate holds, apart from the fields that were copied with it. -/
def stored (d : SequentialIndexRecord κ) : Int × Int × Int × FilePos :=
  (d.rawPos, d.dupPos, d.currentPos, d.currentFile)

omit [KeyType κ] in
/-- Duplicates with the same positions are copied alike. -/
theorem relabelDups_congr {dups' : List (SequentialIndexRecord κ)}
    (h : dups.map (·.rawPos) = dups'.map (·.rawPos)) :
    (relabelDups n dups).map stored = (relabelDups n dups').map stored := by
  induction dups generalizing dups' n with
  | nil =>
    obtain rfl := List.map_eq_nil_iff.1 h.symm
    rfl
  | cons d dups ih =>
    cases dups' with
    | nil => cases h
    | cons d' dups' =>
      obtain ⟨hd, hrest⟩ := List.cons.inj h
      have hempty : dups.isEmpty = dups'.isEmpty := by
        rw [← List.isEmpty_map (f := (·.rawPos)), hrest, List.isEmpty_map]
      rw [relabelDups, relabelDups, List.map_cons, List.map_cons, ih hrest, hempty]
      exact congrArg (· :: _) (Prod.ext hd rfl)

omit [KeyType κ] in
/-- Records with the same keys and positions get into the same files. -/
theorem relabel_congr (h : l.map entryOf = l'.map entryOf) :
    (relabel i n l).map (·.1) = (relabel i n l').map (·.1) ∧
      ((relabel i n l).flatMap (·.2)).map stored = ((relabel i n l').flatMap (·.2)).map stored := by
  induction l generalizing l' i n with
  | nil =>
    obtain rfl := List.map_eq_nil_iff.1 h.symm
    exact ⟨rfl, rfl⟩
  | cons p l ih =>
    cases l' with
    | nil => cases h
    | cons p' l' =>
      obtain ⟨r, dups⟩ := p
      obtain ⟨r', dups'⟩ := p'
      obtain ⟨hp, hrest⟩ := List.cons.inj h
      obtain ⟨hdata, hraw, hdups⟩ := Entry.mk.inj hp
      have hempty : l.isEmpty = l'.isEmpty := by
        rw [← List.isEmpty_map (f := entryOf), hrest, List.isEmpty_map]
      have hnone : dups.isEmpty = dups'.isEmpty := by
        rw [← List.isEmpty_map (f := (·.rawPos)), hdups, List.isEmpty_map]
      have hlen : dups.length = dups'.length := by
        rw [← List.length_map (·.rawPos), hdups, List.length_map]
      obtain ⟨hindex, hfile⟩ := ih (i := i + 1) (n := n + dups'.length) hrest
      simp only [relabel, List.map_cons, List.flatMap_cons, List.map_append, hempty, hnone, hlen]
      refine ⟨?_, by rw [hfile, relabelDups_congr hdups]⟩
      rw [hindex]
      obtain ⟨⟨data, raw, _⟩, _, _, _, _⟩ := r
      obtain ⟨⟨data', raw', _⟩, _, _, _, _⟩ := r'
      obtain rfl : data = data' := hdata
      obtain rfl : raw = raw' := hraw
      rfl

/-- The records of a chain with their duplicates are the entries of what it holds. -/
theorem Contents.exists_duplicates {c : List (SequentialIndexRecord κ)} {m : Multimap κ Int}
    (hm : si.Contents c m) :
    ∃ l : List (SequentialIndexRecord κ × List (SequentialIndexRecord κ)),
      l.map (·.1) = c ∧ l.map entryOf = m.entries ∧ ∀ p ∈ l,
        DupChain duplicatesLayout si.duplicatesFile p.1.dupPos p.2 := by
  rw [Contents, Multimap.Represented] at hm
  generalize m.entries = E at hm ⊢
  induction hm with
  | nil => exact ⟨[], rfl, rfl, fun p hp => absurd hp List.not_mem_nil⟩
  | @cons r e c E hr _ ih =>
    obtain ⟨l, hl, hE, hdups⟩ := ih
    obtain ⟨hkey, hfirst, chain, hchain, hrest⟩ := hr
    have he : entryOf (r, chain) = e := by
      rw [entryOf, hkey, show r.rawPos = e.first from hfirst,
        show chain.map (·.rawPos) = e.rest from hrest]
    exact ⟨(r, chain) :: l, by rw [List.map_cons, hl], by rw [List.map_cons, hE, he],
      List.forall_mem_cons.2 ⟨hchain, hdups⟩⟩

/-- Two runs after which an index holds the same positions, in whatever way it has come to hold
them: `rebuild` comes back on both, with the same header, the same index file and no overflow
records, and with duplicates files that differ at most in the fields that no query reads. A second
`rebuild` changes nothing. -/
theorem files_of_rebuild {sort : List (κ × Int) → List (κ × Int)} {pk : Bool}
    (hsort : SortsByKey sort) {calls calls' : List (SequentialCall κ)}
    {replies replies' : List SequentialReply} {si' : SequentialIndex κ}
    (h : CallRun sort pk calls replies si) (h' : CallRun sort pk calls' replies' si')
    (heq : (answers sort pk calls).2 = (answers sort pk calls').2) :
    ∃ s s', Returns si.rebuild s ∧ Returns si'.rebuild s' ∧ s.pk = s'.pk ∧ s.header = s'.header ∧
      s.indexFile = s'.indexFile ∧ s.auxFile = [] ∧ s'.auxFile = [] ∧
      s.duplicatesFile.map stored = s'.duplicatesFile.map stored ∧ Returns s.rebuild s := by
  obtain ⟨-, hpk, c, hwf, hm⟩ := h.holds hsort
  obtain ⟨-, hpk', c', hwf', hm'⟩ := h'.holds hsort
  obtain ⟨l, rfl, hentries, hdups⟩ := hm.exists_duplicates
  obtain ⟨l', rfl, hentries', hdups'⟩ := hm'.exists_duplicates
  have hsame : l.map entryOf = l'.map entryOf := by rw [hentries, hentries', heq]
  have hempty : l.isEmpty = l'.isEmpty := by
    rw [← List.isEmpty_map (f := entryOf), hsame, List.isEmpty_map]
  obtain ⟨hindex, hfile⟩ := relabel_congr (i := 0) (n := 0) hsame
  refine ⟨packed si.pk l, packed si'.pk l', rebuild_eq hwf.chain hdups, rebuild_eq hwf'.chain hdups',
    hpk.trans hpk'.symm, ?_, hindex, rfl, rfl, hfile, rebuild_packed si.pk l⟩
  simp only [packed, hempty]

/-- Two keys in the one order and in the other. -/
theorem files_of_rebuild_sample : ∃ si si' s s' : SequentialIndex Int,
    CallRun (·.mergeSort fun a b => a.1 ≤ b.1) true [.add 5 1, .add 7 2]
      [.ok ([1, 1], []), .ok ([2], [])] si ∧
    CallRun (·.mergeSort fun a b => a.1 ≤ b.1) true [.add 7 2, .add 5 1]
      [.ok ([2, 2], []), .ok ([1], [])] si' ∧
    Returns si.rebuild s ∧ Returns si'.rebuild s' ∧ s.indexFile = s'.indexFile := by
  obtain ⟨e, he⟩ : ∃ e : SequentialIndex Int,
      Returns ((createFile true).call (·.mergeSort fun a b => a.1 ≤ b.1) · (.add 7 2))
        (.ok ([2, 2], []), e) ∧ e.header.nextFile = .indexFile ∧
      ∃ si', Returns (e.call (·.mergeSort fun a b => a.1 ≤ b.1) · (.add 5 1))
        (.ok ([1], []), si') :=
    ⟨_, .of_add 5 fun _ => rfl, rfl, _, .of_add 5 fun _ => rfl⟩
  obtain ⟨hfirst, hfile, si', hsecond⟩ := he
  obtain ⟨si, hadd⟩ : ∃ si : SequentialIndex Int,
      Returns (oneKey.call (·.mergeSort fun a b => a.1 ≤ b.1) · (.add 7 2)) (.ok ([2], []), si) :=
    ⟨_, .of_add 5 fun _ => rfl⟩
  have r1 : CallRun (·.mergeSort fun a b => a.1 ≤ b.1) true [.add 5 1] [.ok ([1, 1], [])] oneKey :=
    .call .start (fun h => by cases h.1) (.of_add 5 fun _ => rfl)
  have r2 := r1.call (c := .add 7 2) (fun h => by cases h.1) hadd
  have r1' : CallRun (·.mergeSort fun a b => a.1 ≤ b.1) true [.add 7 2] [.ok ([2, 2], [])] e :=
    .call .start (fun h => by cases h.1) hfirst
  have hnot : ¬ e.HeaderMisplaced 5 := fun h => absurd (hfile.symm.trans h.1) (by decide)
  have r2' := r1'.call (c := .add 5 1) hnot hsecond
  obtain ⟨s, s', hs, hs', -, -, hindex, -⟩ := files_of_rebuild sortsByKey_mergeSort r2 r2' rfl
  exact ⟨si, si', s, s', r2, r2', hs, hs', hindex⟩

end

end SequentialIndex

end Rdbms
