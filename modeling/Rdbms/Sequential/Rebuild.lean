import Rdbms.Sequential.Query

/-!
# Rebuild

`rebuild` walks along the chain and copies what it meets into new files. What the walk needs is
small: a chain that ends with `next_pos = -1`, and finite chains of duplicates. `rebuild_returns`
says what the new files are: every record of the chain in its place (`Copied`), numbered one after
the other (`Renumbered`). The result is well formed, so the queries on it answer with what the
chain held, whatever else was in the old files.
-/

namespace Rdbms

namespace SequentialIndex
variable {κ : Type} [KeyType κ] {si : SequentialIndex κ} {c : List (SequentialIndexRecord κ)}
  {m : Multimap κ Int}

/-! ## Copying the duplicates of a record -/

omit [KeyType κ] in
/-- Copying a chain of duplicates puts its records at the end of the new file, each linked to the
next one. -/
theorem rebuildDuplicatesBody_chain : ∀ {dups : List (SequentialIndexRecord κ)}
    {r : SequentialIndexRecord κ} (new : List (SequentialIndexRecord κ)),
    DupChain duplicatesLayout si.duplicatesFile r.dupPos dups →
    ∃ d copies, LoopReturns (fun _ => si.rebuildDuplicatesBody) (r, true, new)
        (d, true, new ++ copies) ∧
      DupChain duplicatesLayout (new ++ copies) (duplicatesLayout.endPos new) copies ∧
      copies.map (·.rawPos) = r.rawPos :: dups.map (·.rawPos) ∧
      ∀ o, OnDupChain duplicatesLayout (new ++ copies) (duplicatesLayout.endPos new) o →
        duplicatesLayout.endPos new ≤ o
  | [], r, new, h => by
    have hend : r.dupPos = endOfFile := Path.nil_iff.1 h
    let r' := (r.setCurrent (duplicatesLayout.endPos new) .dupFile).setDupPos endOfFile
    have hread : duplicatesLayout.read (new ++ [r']) (duplicatesLayout.endPos new) = some r' :=
      Layout.read_endPos_append
    refine ⟨r', [r'], .done (.of_eq fun _ => ?_), .cons hread .nil, rfl, fun o ho => ?_⟩
    · simp only [rebuildDuplicatesBody, if_pos hend]
      rfl
    · rcases (Visits.iff_of_read hread).1 ho with rfl | hnext
      · exact le_rfl
      · exact absurd hnext not_onDupChain_end
  | d :: dups, r, new, h => by
    obtain ⟨hd, hdups⟩ := Path.cons_iff.1 h
    have hne : r.dupPos ≠ endOfFile := Layout.ne_neg_one_of_read hd
    let r' := (r.setCurrent (duplicatesLayout.endPos new) .dupFile).setDupPos
      (duplicatesLayout.endPos new + sequentialIndexSize)
    obtain ⟨d', copies, hret, hchain, hraw, hbehind⟩ :=
      rebuildDuplicatesBody_chain (new ++ [r']) hdups
    have hle : duplicatesLayout.endPos new ≤ duplicatesLayout.endPos (new ++ [r']) :=
      Layout.endPos_le_append
    have hnext : duplicatesLayout.endPos (new ++ [r']) =
        duplicatesLayout.endPos new + sequentialIndexSize := by
      rw [Layout.endPos, List.length_append]
      exact Layout.pos_succ
    rw [hnext] at hchain hbehind hle
    rw [List.append_assoc] at hret hchain hbehind
    have hread : duplicatesLayout.read (new ++ ([r'] ++ copies)) (duplicatesLayout.endPos new) =
        some r' := by
      rw [← List.append_assoc]
      exact Layout.read_append Layout.read_endPos_append
    refine ⟨d', r' :: copies, .step (.of_eq fun _ => ?_) hret, .cons hread hchain,
      by simp [hraw, r']; rfl, fun o ho => ?_⟩
    · have hmove : Rdbms.moveReadRecord duplicatesLayout si.duplicatesFile true r.dupPos r' =
        (d, true) := moveReadRecord_of_read hd
      simp only [rebuildDuplicatesBody, if_neg hne]
      exact congrArg (fun x => some (Sum.inl (x.1, x.2, new ++ [r']))) hmove
    · rcases (Visits.iff_of_read hread).1 ho with rfl | hrest
      · exact le_rfl
      · exact hle.trans (hbehind o hrest)

/-- The duplicates of a record in the new file, behind all that was there. -/
theorem rebuildDuplicates_returns {r d : SequentialIndexRecord κ}
    {dups : List (SequentialIndexRecord κ)} (newIndex new : List (SequentialIndexRecord κ))
    (h : DupChain duplicatesLayout si.duplicatesFile r.dupPos dups) :
    ∃ pos d' copies, Returns (si.rebuildDuplicates · ⟨r, d, {}, true, newIndex, new⟩)
        ⟨r.setDupPos pos, d', {}, true, newIndex, new ++ copies⟩ ∧
      DupChain duplicatesLayout (new ++ copies) pos copies ∧
      copies.map (·.rawPos) = dups.map (·.rawPos) ∧
      ∀ o, OnDupChain duplicatesLayout (new ++ copies) pos o → duplicatesLayout.endPos new ≤ o := by
  cases dups with
  | nil =>
    have hend : r.dupPos = endOfFile := Path.nil_iff.1 h
    refine ⟨r.dupPos, d, [], .of_eq fun n => ?_, hend ▸ .nil, rfl, fun o ho => ?_⟩
    · rw [rebuildDuplicates, if_neg (not_not.2 hend), List.append_nil]
      rfl
    · rw [hend] at ho
      exact absurd ho not_onDupChain_end
  | cons d1 dups =>
    obtain ⟨hd, hdups⟩ := Path.cons_iff.1 h
    obtain ⟨d', copies, hret, hchain, hraw, hbehind⟩ := rebuildDuplicatesBody_chain new hdups
    refine ⟨duplicatesLayout.endPos new, d', copies, (hret.returns.map fun x =>
      (⟨r.setDupPos (duplicatesLayout.endPos new), x.1, {}, x.2.1, newIndex, x.2.2⟩ :
        RebuildState κ)).congr fun n => ?_, hchain, hraw, hbehind⟩
    rw [rebuildDuplicates, if_pos (Layout.ne_neg_one_of_read hd)]
    simp only [moveReadRecord_of_read hd]

/-! ## Copying the chain -/

/-- The record `r'` of the new files is the record `r` of the old ones: the same key with the same
positions in the same order. -/
def Copied (old new : List (SequentialIndexRecord κ)) (r r' : SequentialIndexRecord κ) : Prop :=
  r'.data = r.data ∧ r'.rawPos = r.rawPos ∧
    ∃ dups dups', DupChain duplicatesLayout old r.dupPos dups ∧
      DupChain duplicatesLayout new r'.dupPos dups' ∧
      dups'.map (·.rawPos) = dups.map (·.rawPos)

/-- Records in physical order, the first one in the `n`-th place of the index file: each stores its
own position and is linked to its physical successor. -/
def Renumbered : Nat → List (SequentialIndexRecord κ) → Prop
  | _, [] => True
  | n, r :: l => r.loc = (indexLayout.pos n, .indexFile) ∧
      r.link = (if l.isEmpty then endLink else (indexLayout.pos (n + 1), .indexFile)) ∧
      Renumbered (n + 1) l

omit [KeyType κ] in
/-- The duplicates of a record in front of those of other records in a file. -/
theorem disjointChains_cons {new copies dups : List (SequentialIndexRecord κ)} {pos : Int}
    {starts : List Int} (hchain : DupChain duplicatesLayout (new ++ copies) pos copies)
    (hrest : DisjointChains duplicatesLayout (new ++ (copies ++ dups)) starts)
    (hbehind : ∀ p ∈ starts, ∀ o, OnDupChain duplicatesLayout (new ++ (copies ++ dups)) p o →
      duplicatesLayout.endPos (new ++ copies) ≤ o) :
    DisjointChains duplicatesLayout (new ++ (copies ++ dups)) (pos :: starts) := by
  refine List.pairwise_cons.2 ⟨fun p hp o ho ho' => ?_, hrest⟩
  rw [← List.append_assoc] at ho
  obtain ⟨_, hread⟩ := (hchain.onDupChain_append dups ho).exists_read
  exact ((Layout.lt_endPos_of_read hread).trans_le (hbehind p hp o ho')).false

/-- Copying the rest `r :: s` of a chain puts its records at the end of the new index file, and
their duplicates at the end of the new duplicates file. -/
theorem rebuildBody_path {f : FilePos} : ∀ {s : List (SequentialIndexRecord κ)}
    {r d : SequentialIndexRecord κ} (newIndex new : List (SequentialIndexRecord κ)),
    Path si.readLink (·.link) r.link s (endOfFile, f) →
    (∀ x ∈ r :: s, ∃ dups, DupChain duplicatesLayout si.duplicatesFile x.dupPos dups) →
    ∃ sir d' copies dups, LoopReturns si.rebuildBody ⟨r, d, {}, true, newIndex, new⟩
        ⟨sir, d', {}, true, newIndex ++ copies, new ++ dups⟩ ∧
      List.Forall₂ (Copied si.duplicatesFile (new ++ dups)) (r :: s) copies ∧
      Renumbered newIndex.length copies ∧
      DisjointChains duplicatesLayout (new ++ dups) (copies.map (·.dupPos)) ∧
      ∀ p ∈ copies.map (·.dupPos), ∀ o, OnDupChain duplicatesLayout (new ++ dups) p o →
        duplicatesLayout.endPos new ≤ o
  | [], r, d, newIndex, new, hpath, hdups => by
    obtain ⟨chain, hchain⟩ := hdups r (.head _)
    obtain ⟨pos, d', copies, hret, hcopies, hraw, hbehind⟩ :=
      rebuildDuplicates_returns (d := d) newIndex new hchain
    have hend : r.nextPos = endOfFile := (Prod.ext_iff.1 (Path.nil_iff.1 hpath)).1
    let r' := ((r.setDupPos pos).setCurrent (indexLayout.endPos newIndex) .indexFile).setNext
      endOfFile .indexFile
    have hrec : si.rebuildRecord ⟨r.setDupPos pos, d', {}, true, newIndex, new ++ copies⟩ =
        .inr ⟨r', d', {}, true, newIndex ++ [r'], new ++ copies⟩ := by
      have hend' : (r.setDupPos pos).nextPos = endOfFile := hend
      simp only [rebuildRecord, if_pos hend']
      rfl
    refine ⟨r', d', [r'], copies, .done (hrec ▸ hret.map _), .cons ?_ .nil, ?_,
      List.pairwise_singleton _ _, fun p hp => ?_⟩
    · exact ⟨rfl, rfl, chain, copies, hchain, hcopies, hraw⟩
    · exact ⟨rfl, rfl, trivial⟩
    · obtain rfl : p = pos := List.mem_singleton.1 hp
      exact hbehind
  | x :: s, r, d, newIndex, new, hpath, hdups => by
    obtain ⟨hx, hpath⟩ := Path.cons_iff.1 hpath
    obtain ⟨chain, hchain⟩ := hdups r (.head _)
    obtain ⟨pos, d', copies, hret, hcopies, hraw, hbehind⟩ :=
      rebuildDuplicates_returns (d := d) newIndex new hchain
    have hne : (r.setDupPos pos).nextPos ≠ endOfFile := ne_endOfFile_of_readLink hx
    let r' := ((r.setDupPos pos).setCurrent (indexLayout.endPos newIndex) .indexFile).setNext
      (indexLayout.endPos newIndex + sequentialIndexSize) .indexFile
    have hread : ∀ y, si.moveReadNext {} (r.setDupPos pos).nextPos (r.setDupPos pos).nextFile y =
        (x, {}) := moveReadNext_of_readLink hx
    have hrec : si.rebuildRecord ⟨r.setDupPos pos, d', {}, true, newIndex, new ++ copies⟩ =
        .inl ⟨x, d', {}, true, newIndex ++ [r'], new ++ copies⟩ := by
      simp only [rebuildRecord, if_neg hne, hread]
      rfl
    obtain ⟨sir, d'', copies', dups, hloop, hcopied, hnum, hdisjoint, hrest⟩ :=
      rebuildBody_path (d := d') (newIndex ++ [r']) (new ++ copies) hpath
        fun y hy => hdups y (.tail _ hy)
    rw [List.append_assoc, List.append_assoc] at hloop
    rw [List.append_assoc] at hcopied hdisjoint hrest
    refine ⟨sir, d'', r' :: copies', copies ++ dups, .step (hrec ▸ hret.map _) hloop,
      .cons ?_ hcopied, ?_, disjointChains_cons hcopies hdisjoint hrest, fun p hp o ho => ?_⟩
    · refine ⟨rfl, rfl, chain, copies, hchain, ?_, hraw⟩
      rw [← List.append_assoc]
      exact hcopies.append dups
    · refine ⟨rfl, ?_, by simpa using hnum⟩
      cases copies' with
      | nil => cases hcopied
      | cons y l =>
        have : indexLayout.pos (newIndex.length + 1) =
          indexLayout.endPos newIndex + sequentialIndexSize := Layout.pos_succ
        rw [this]; rfl
    · rcases List.mem_cons.1 hp with rfl | hp
      · rw [← List.append_assoc] at ho
        exact hbehind o (hcopies.onDupChain_append dups ho)
      · exact Layout.endPos_le_append.trans (hrest p hp o ho)

/-! ## The rebuilt index -/

omit [KeyType κ] in
/-- Each of the records stores its own position. -/
theorem Renumbered.loc : ∀ {l : List (SequentialIndexRecord κ)} {n : Nat}, Renumbered n l →
    ∀ i (h : i < l.length), l[i].loc = (indexLayout.pos (n + i), .indexFile)
  | _ :: _, _, h, 0, _ => h.1
  | _ :: _, n, h, i + 1, hi => by
    have := h.2.2.loc i (by simpa using hi)
    rwa [Nat.add_right_comm] at this

omit [KeyType κ] in
/-- The last records of a file. -/
theorem Renumbered.of_append : ∀ {l1 l2 : List (SequentialIndexRecord κ)} {n : Nat},
    Renumbered n (l1 ++ l2) → Renumbered (n + l1.length) l2
  | [], _, _, h => h
  | _ :: l1, _, n, h => by
    have := h.2.2.of_append
    rwa [Nat.add_right_comm] at this

omit [KeyType κ] in
/-- What stands before the last records of a file does not depend on them. -/
theorem Renumbered.replace : ∀ {l1 l2 l2' : List (SequentialIndexRecord κ)} {n : Nat},
    Renumbered n (l1 ++ l2) → l2 ≠ [] → l2' ≠ [] → Renumbered (n + l1.length) l2' →
    Renumbered n (l1 ++ l2')
  | [], _, _, _, _, _, _, h' => h'
  | _ :: l1, l2, l2', n, h, h2, h2', h' => by
    refine ⟨h.1, ?_, h.2.2.replace h2 h2' (by rwa [Nat.add_right_comm])⟩
    have hlink := h.2.1
    rw [if_neg (by simp [h2])] at hlink
    rw [if_neg (by simp [h2']), hlink]

omit [KeyType κ] in
/-- Records in physical order are a chain. -/
theorem Renumbered.path : ∀ {l : List (SequentialIndexRecord κ)} {n : Nat}, Renumbered n l →
    l ≠ [] → (∀ i (h : i < l.length), si.indexFile[n + i]? = some l[i]) →
    Path si.readLink (·.link) (indexLayout.pos n, .indexFile) l endLink
  | [r], n, h, _, hfile => by
    refine .cons ?_ (h.2.1 ▸ .nil)
    rw [readLink_index, Layout.read_pos]
    exact hfile 0 (by simp)
  | r :: x :: l, n, h, _, hfile => by
    refine .cons ?_ ?_
    · rw [readLink_index, Layout.read_pos]
      exact hfile 0 (by simp)
    · rw [h.2.1]
      refine h.2.2.path (by simp) fun i hi => ?_
      have := hfile (i + 1) (by simpa using hi)
      rwa [← Nat.add_assoc, Nat.add_right_comm] at this

/-- An index without overflow records whose index file is in physical order is well formed. -/
theorem WellFormed.of_renumbered (hheader : si.header.link =
      if si.indexFile.isEmpty then endLink else (indexLayout.pos 0, .indexFile))
    (haux : si.auxFile = []) (hnum : Renumbered 0 si.indexFile)
    (hsort : SortedBy (·.data) si.indexFile) (hm : si.Contents si.indexFile m) :
    si.WellFormed si.indexFile := by
  refine .of_covers ?_ hsort (own_of_files (by simpa using hnum.loc) (by simp [haux])) ?_ hsort
    (fun _ => haux) hm
  · rw [Chain, hheader]
    by_cases hne : si.indexFile = []
    · simp [hne]
    · rw [if_neg (by simpa using hne)]
      exact hnum.path hne fun i hi => by simp [hi]
  · intro l r hr
    rcases file_of_readLink hr with hf | hf
    · exact mem_index_of_readLink hr hf
    · have := mem_aux_of_readLink hr hf
      rw [haux] at this; cases this

omit [KeyType κ] in
/-- A copied record holds what the old one held. -/
theorem Copied.recordHolds {si' : SequentialIndex κ} {r r' : SequentialIndexRecord κ}
    {e : Entry κ Int} (h : Copied si.duplicatesFile si'.duplicatesFile r r')
    (he : si.RecordHolds r e) : si'.RecordHolds r' e := by
  obtain ⟨hdata, hraw, dups, dups', hd, hd', heq⟩ := h
  obtain ⟨hkey, hfirst, chain, hchain, hrest⟩ := he
  obtain ⟨rfl, -⟩ := Path.unique hd Layout.read_neg_one hchain Layout.read_neg_one
  exact ⟨hdata.trans hkey, hraw.trans hfirst, dups', hd', heq.trans hrest⟩

/-- Copied records hold what the old ones held. -/
theorem Contents.of_copied {si' : SequentialIndex κ} {c' : List (SequentialIndexRecord κ)}
    (h : List.Forall₂ (Copied si.duplicatesFile si'.duplicatesFile) c c')
    (hm : si.Contents c m) : si'.Contents c' m := by
  rw [Contents, Multimap.Represented] at *
  generalize m.entries = E at hm ⊢
  induction h generalizing E with
  | nil => cases hm; exact .nil
  | cons hr _ ih =>
    cases hm with
    | cons he hE => exact .cons (hr.recordHolds he) (ih _ hE)

/-- `rebuild` comes back with new files that hold the chain in physical order and nothing else. -/
theorem rebuild_returns {f : FilePos}
    (hpath : Path si.readLink (·.link) si.header.link c (endOfFile, f))
    (hdups : ∀ r ∈ c, ∃ dups, DupChain duplicatesLayout si.duplicatesFile r.dupPos dups) :
    ∃ si', Returns si.rebuild si' ∧ si'.pk = si.pk ∧ si'.auxFile = [] ∧
      List.Forall₂ (Copied si.duplicatesFile si'.duplicatesFile) c si'.indexFile ∧
      Renumbered 0 si'.indexFile ∧ (si'.header.link =
        if si'.indexFile.isEmpty then endLink else (indexLayout.pos 0, .indexFile)) ∧
      si'.DisjointDuplicates si'.indexFile := by
  cases c with
  | nil =>
    have hend : si.header.nextPos = endOfFile := (Prod.ext_iff.1 (Path.nil_iff.1 hpath)).1
    refine ⟨⟨si.pk, ⟨endOfFile, .indexFile⟩, [], [], []⟩, .of_eq fun n => ?_, rfl, rfl, .nil,
      trivial, rfl, .nil⟩
    rw [rebuild, if_neg (not_not.2 hend)]
  | cons r s =>
    obtain ⟨hr, hpath⟩ := Path.cons_iff.1 hpath
    have hne : si.header.nextPos ≠ endOfFile := ne_endOfFile_of_readLink hr
    have hread : si.moveReadNext {} si.header.nextPos si.header.nextFile default = (r, {}) :=
      moveReadNext_of_readLink hr default
    obtain ⟨sir, d, copies, dups, hloop, hcopied, hnum, hdisjoint, -⟩ :=
      rebuildBody_path (d := default) [] [] hpath hdups
    refine ⟨⟨si.pk, ⟨sequentialHeaderSize, .indexFile⟩, copies, [], dups⟩, ?_, rfl, rfl, hcopied,
      hnum, ?_, hdisjoint⟩
    · refine (hloop.returns.map fun s : RebuildState κ => (⟨si.pk,
        ⟨sequentialHeaderSize, .indexFile⟩, s.newIndexFile, [], s.newDuplicatesFile⟩ :
        SequentialIndex κ)).congr fun n => ?_
      rw [rebuild, if_pos hne]
      simp only [hread]
    · cases hcopied with
      | cons _ _ => rfl

/-- The rebuilt index is well formed with its index file as the chain, and holds what the old chain
held. -/
theorem rebuild_wellFormed {f : FilePos}
    (hpath : Path si.readLink (·.link) si.header.link c (endOfFile, f))
    (hsort : SortedBy (·.data) c) (hm : si.Contents c m) :
    ∃ si', Returns si.rebuild si' ∧ si'.pk = si.pk ∧ si'.WellFormed si'.indexFile ∧
      si'.Contents si'.indexFile m ∧ si'.DisjointDuplicates si'.indexFile := by
  obtain ⟨si', hret, hpk, haux, hcopied, hnum, hheader, hdisjoint⟩ :=
    rebuild_returns hpath fun r hr => by
      obtain ⟨e, -, -, -, dups, hd, -⟩ := Multimap.forall₂_exists hm hr
      exact ⟨dups, hd⟩
  have hm' := hm.of_copied hcopied
  refine ⟨si', hret, hpk, .of_renumbered hheader haux hnum (hsort.congr_map ?_) hm', hm', hdisjoint⟩
  rw [← hm.keys_eq key_of_recordHolds, ← hm'.keys_eq key_of_recordHolds]

/-- `rebuild` of any chain in key order that ends with `next_pos = -1`: the new index file is the
chain in physical order, the overflow file is empty, every key keeps its positions in their order,
and the queries on the new files answer with exactly what the chain held. When the chain visited
every record of the index file in physical order and each record stores its own position, that is
also what they answered before (`Linked`). -/
theorem rebuild_preserves {f : FilePos}
    (hpath : Path si.readLink (·.link) si.header.link c (endOfFile, f))
    (hsort : SortedBy (·.data) c)
    (hdups : ∀ r ∈ c, ∃ dups, DupChain duplicatesLayout si.duplicatesFile r.dupPos dups) :
    ∃ si', Returns si.rebuild si' ∧
      List.Forall₂ (Copied si.duplicatesFile si'.duplicatesFile) c si'.indexFile ∧
      Renumbered 0 si'.indexFile ∧ si'.auxFile = [] ∧ si'.WellFormed si'.indexFile ∧
      (∀ r ∈ c, ∀ dups, DupChain duplicatesLayout si.duplicatesFile r.dupPos dups →
        Returns (si'.search · r.data) (r.rawPos :: dups.map (·.rawPos))) ∧
      (∀ k, (∀ r ∈ c, r.data ≠ k) → Returns (si'.search · k) []) ∧
      (∃ positions : κ → List Int, (∀ k, Returns (si'.search · k) (positions k)) ∧
        ∀ b e, Returns (si'.rangeSearch · b e)
          (((c.map (·.data)).filter fun k => b ≤ k ∧ k ≤ e).flatMap positions)) ∧
      (si.Linked c → (∀ k, ∃ res, Returns (si.search · k) res ∧ Returns (si'.search · k) res) ∧
        ∀ b e, ∃ res, Returns (si.rangeSearch · b e) res ∧ Returns (si'.rangeSearch · b e) res) := by
  obtain ⟨m, hm⟩ := exists_contents hsort hdups
  obtain ⟨si', hret, -, haux, hcopied, hnum, hheader, -⟩ := rebuild_returns hpath hdups
  have hm' := hm.of_copied hcopied
  have hkeys : si'.indexFile.map (·.data) = c.map (·.data) := by
    rw [← hm.keys_eq key_of_recordHolds, ← hm'.keys_eq key_of_recordHolds]
  have hwf := WellFormed.of_renumbered hheader haux hnum (hsort.congr_map hkeys) hm'
  refine ⟨si', hret, hcopied, hnum, haux, hwf, fun r hr dups hd => ?_, fun k hk => ?_,
    ⟨m.values, search_returns hwf.linked hm', fun b e => ?_⟩,
    fun h => ⟨fun k => ⟨_, search_returns h hm k, search_returns hwf.linked hm' k⟩, fun b e =>
      ⟨_, rangeSearch_returns h hm b e, rangeSearch_returns hwf.linked hm' b e⟩⟩⟩
  · rw [← hm.values_eq_of_dupChain hr hd]
    exact search_returns hwf.linked hm' r.data
  · rw [← hm.values_eq_nil hk]
    exact search_returns hwf.linked hm' k
  · rw [← hkeys, ← hm'.keys_eq key_of_recordHolds, ← Multimap.between_eq_flatMap_keys]
    exact rangeSearch_returns hwf.linked hm' b e

/-- Three keys, one with a duplicate. -/
theorem rebuild_preserves_sample : ∃ si', Returns sampleIndex.rebuild si' ∧
    Returns (si'.search · 10) [100, 101] ∧ Returns (si'.search · 15) [150] ∧
      Returns (si'.search · 12) [] := by
  have h := sampleIndex_wellFormed
  obtain ⟨si', hret, -, -, -, -, h1, h2, -⟩ := rebuild_preserves h.chain h.sorted h.duplicates
  exact ⟨si', hret, h1 _ (.head _) [_] (.cons rfl .nil), h1 _ (.tail _ (.head _)) [] .nil,
    h2 12 (by decide)⟩

/-- The keys 10, 20 and 30 after `erase` has unlinked 20 and before `remove` has rebuilt the
files. -/
def unlinkedIndex : SequentialIndex Int where
  pk := false
  header := ⟨24, .indexFile⟩
  indexFile := [⟨⟨10, 100, -1⟩, 24, .indexFile, 200, .indexFile⟩,
    ⟨⟨20, 200, -1⟩, 112, .indexFile, -1, .indexFile⟩,
    ⟨⟨30, 300, -1⟩, 200, .indexFile, -1, .indexFile⟩]
  auxFile := []
  duplicatesFile := []

/-- The binary search still finds the unlinked record, and no longer after the rebuild: for the key
20 `search` answers differently before and after. -/
theorem search_unlinkedIndex : ∃ c si',
    Path unlinkedIndex.readLink (·.link) unlinkedIndex.header.link c endLink ∧
    SortedBy (·.data) c ∧
    (∀ r ∈ c, DupChain duplicatesLayout unlinkedIndex.duplicatesFile r.dupPos []) ∧
    Returns unlinkedIndex.rebuild si' ∧ Returns (unlinkedIndex.search · 20) [200] ∧
    Returns (si'.search · 20) [] := by
  refine ⟨[⟨⟨10, 100, -1⟩, 24, .indexFile, 200, .indexFile⟩,
      ⟨⟨30, 300, -1⟩, 200, .indexFile, -1, .indexFile⟩],
    { pk := false, header := ⟨24, .indexFile⟩, auxFile := [], duplicatesFile := [],
      indexFile := [⟨⟨10, 100, -1⟩, 24, .indexFile, 112, .indexFile⟩,
        ⟨⟨30, 300, -1⟩, 112, .indexFile, -1, .indexFile⟩] },
    .cons rfl (.cons rfl .nil), by unfold SortedBy; decide, ?_, .of_add 3 fun _ => rfl,
    .of_add 3 fun _ => rfl, .of_add 3 fun _ => rfl⟩
  intro r hr
  simp only [List.mem_cons, List.not_mem_nil, or_false] at hr
  rcases hr with rfl | rfl <;> exact .nil

end SequentialIndex

end Rdbms
