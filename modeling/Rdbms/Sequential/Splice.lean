import Rdbms.Sequential.Insert

/-!
# Where an insertion goes

`add_splices`: a key that is not below the first record of the index file goes to its place in the
chain, or its position goes to the front of the duplicates of its key, and nothing else changes. Such
a key is never in front of the record that the header points to.

`add_throws_iff`: on a primary-key index `add` throws exactly for the keys of the chain, and before
its first write. This needs neither the duplicates nor the place of the header: the walk through an
overflow run meets the key, or inserts (`Checked`).
-/

namespace Rdbms

namespace SequentialIndex
variable {κ : Type} [KeyType κ] {si : SequentialIndex κ} {c A : List (SequentialIndexRecord κ)}
  {l' : Int × FilePos} {r p : SequentialIndexRecord κ} {bsr : BinarySearchResponse κ} {k : κ}

/-! ## At or behind the first record -/

/-- The first record of the chain. -/
theorem Threaded.head_le (h : si.Threaded c) {x y : SequentialIndexRecord κ}
    (hx : si.readLink si.header.link = some x) (hy : y ∈ c) : x ∈ c ∧ x.data ≤ y.data := by
  cases c with
  | nil => cases hy
  | cons a c =>
    obtain rfl := Option.some.inj (hx.symm.trans (Path.cons_iff.1 h.chain).1)
    refine ⟨.head _, ?_⟩
    rcases List.mem_cons.1 hy with rfl | hy
    · exact le_rfl
    · exact ((SortedBy.cons_iff.1 h.sorted).1 y hy).le

/-- A key that is not below the first record of the index file. -/
theorem Threaded.not_headerMisplaced (h : si.Threaded c) (hn : 0 < si.indexFile.length)
    (hk : si.indexFile[0].data ≤ k) : ¬ si.HeaderMisplaced k := by
  rintro ⟨-, x, hx, hlt⟩
  have hle := (h.head_le hx (h.mem_index_iff.1 (List.getElem_mem hn)).1).2
  exact (hle.trans hk).not_gt hlt

/-- An insertion at or behind the first record of the index file, with or without the closing
rebuild: the index is well formed again, no duplicate hangs off two records, and its chain has the
records of the old one, each with its key and its positions, and between them the new record, or in
the place of the record of the key one with the position in front of its duplicates. -/
theorem add_splices (h : si.WellFormed c) (hdisjoint : si.DisjointDuplicates c)
    (hpk : si.pk = false) (hn : 0 < si.indexFile.length) (hk : si.indexFile[0].data ≤ k) (v : Int)
    (rebuild : Bool) :
    ∃ m records si' c' m', si.Contents c m ∧
      Returns (si.add · k v rebuild) (.ok records, si') ∧ si'.pk = false ∧
      si'.WellFormed c' ∧ si'.DisjointDuplicates c' ∧ si'.Contents c' m' ∧
      ((∀ r ∈ c, r.data ≠ k) → ∃ E1 E2, m.entries = E1 ++ E2 ∧
        m'.entries = E1 ++ ⟨k, v, []⟩ :: E2) ∧
      ((∃ r ∈ c, r.data = k) → ∃ E1 e E2, m.entries = E1 ++ e :: E2 ∧ e.key = k ∧
        m'.entries = E1 ++ ⟨k, e.first, v :: e.rest⟩ :: E2) := by
  obtain ⟨m, hm⟩ := exists_contents h.sorted h.duplicates
  obtain ⟨res, hret, hins⟩ := add_returns h hm v
    (h.linked.threaded.not_headerMisplaced hn hk) rebuild
  cases hins with
  | refused hpk' => rw [hpk] at hpk'; cases hpk'
  | @done records si' c' _ hpk' hwf hm' hd =>
    have hkeys : (∃ r ∈ c, r.data = k) ↔ ∃ e ∈ m.entries, e.key = k := by
      rw [← List.mem_map, ← List.mem_map]
      exact iff_of_eq (congrArg (k ∈ ·) (hm.keys_eq key_of_recordHolds)).symm
    refine ⟨m, records, si', c', m.insert k v, hm, hret, hpk'.trans hpk, hwf, hd hdisjoint, hm',
      fun hnew => ?_, fun hold => ?_⟩
    · rcases m.insert_cases k v with ⟨E1, e, E2, hE, he, -⟩ | ⟨E1, E2, hE, -, -, hE'⟩
      · obtain ⟨r, hr, hrk⟩ := hkeys.2 ⟨e, by simp [hE], he⟩
        exact absurd hrk (hnew r hr)
      · exact ⟨E1, E2, hE, hE'⟩
    · rcases m.insert_cases k v with ⟨E1, e, E2, hE, rfl, hE'⟩ | ⟨E1, E2, hE, h1, h2, -⟩
      · exact ⟨E1, e, E2, hE, rfl, hE'⟩
      · obtain ⟨e, he, hek⟩ := hkeys.1 hold
        rw [hE, List.mem_append] at he
        rcases he with he | he
        · exact absurd hek (h1 e he).ne
        · exact absurd hek (h2 e he).ne'

/-- A key behind the first record, and a key that is stored. -/
theorem add_splices_sample : ∃ si' si'' : SequentialIndex Int, ∃ r r',
    Returns (sampleIndex.add · 18 180 true) (.ok r, si') ∧
      Returns (sampleIndex.add · 10 102 true) (.ok r', si'') := by
  obtain ⟨-, r, si', -, -, -, h1, -⟩ := add_splices (k := 18) sampleIndex_wellFormed
    sampleIndex_disjoint rfl (by decide) (by decide) 180 true
  obtain ⟨-, r', si'', -, -, -, h2, -⟩ := add_splices (k := 10) sampleIndex_wellFormed
    sampleIndex_disjoint rfl (by decide) (by decide) 102 true
  exact ⟨si', si'', r, r', h1, h2⟩

/-! ## The check of a primary key -/

/-- How the branches of `add` end on a primary-key index. -/
inductive Checked (si : SequentialIndex κ) (stored : Prop) :
    Outcome (SequentialIndex κ) Unit → Prop
  | refused {e : Exn} : stored → Checked si stored (.error e, si)
  | done {si' : SequentialIndex κ} : ¬ stored → Checked si stored (.ok (), si')

omit [KeyType κ] in
/-- A stored key is refused. -/
theorem Checked.duplicate (hpk : si.pk = true) {stored : Prop} (hs : stored) (file : Stream) :
    Checked si stored (si.insertDuplicateUnlessPk file p r) := by
  rw [insertDuplicateUnlessPk, if_pos hpk]
  exact .refused hs

omit [KeyType κ] in
/-- The same for an equivalent condition. -/
theorem Checked.congr {stored stored' : Prop} {res : Outcome (SequentialIndex κ) Unit}
    (h : Checked si stored res) (hiff : stored' ↔ stored) : Checked si stored' res := by
  rwa [propext hiff]

/-- The walk of `insertAux` through a run, behind a record that is below the key. -/
theorem insertAuxBody_checked (hpk : si.pk = true)
    (hown : ∀ l r, si.readLink l = some r → r.loc = l) (sih : SequentialIndexHeader) :
    ∀ {A : List (SequentialIndexRecord κ)} {prev cur : SequentialIndexRecord κ},
      si.AuxRun cur.link A l' → SortedBy (·.data) (cur :: A) → prev.data < r.data →
      ∃ res, LoopReturns (fun _ => si.insertAuxBody r sih) (prev, cur, .aux) res ∧
        Checked si (∃ x ∈ cur :: A, x.data = r.data) res
  | A, prev, cur, hrun, hsort, hprev => by
    have hfile := hrun.file_eq_iff hown
    have hcur := (SortedBy.cons_iff.1 hsort).1
    -- a record above the key ends the search: the rest of the run is above it too
    have habove : r.data < cur.data → ¬ ∃ x ∈ cur :: A, x.data = r.data := by
      rintro hlt ⟨x, hx, hxr⟩
      rcases List.mem_cons.1 hx with rfl | hx
      · exact hlt.ne' hxr
      · exact (hlt.trans (hcur x hx)).ne' hxr
    cases A with
    | nil =>
      have hnext : cur.nextFile = .indexFile := hfile.2 rfl
      rcases lt_trichotomy cur.data r.data with hlt | heq | hgt
      · refine ⟨(.ok (), si.insertAfterRecord .aux cur r sih false), .done (.of_eq fun _ => ?_),
          .done ?_⟩
        · simp only [insertAuxBody, hnext, ne_eq, not_true, if_false, if_neg hlt.ne, if_pos hlt]
        · rintro ⟨x, hx, hxr⟩
          obtain rfl := List.mem_singleton.1 hx
          exact hlt.ne hxr
      · refine ⟨si.insertDuplicateUnlessPk .aux cur r, .done (.of_eq fun _ => ?_),
          .duplicate hpk ⟨cur, .head _, heq⟩ .aux⟩
        simp only [insertAuxBody, hnext, ne_eq, not_true, if_false, if_pos heq]
      · refine ⟨(.ok (), si.insertAfterRecord .aux prev r sih false), .done (.of_eq fun _ => ?_),
          .done (habove hgt)⟩
        simp only [insertAuxBody, hnext, ne_eq, not_true, if_false, if_neg hgt.ne',
          if_neg hgt.not_gt]
    | cons a A =>
      have hnext : cur.nextFile ≠ .indexFile := fun hc => by simpa using hfile.1 hc
      obtain ⟨ha, -, hrun'⟩ := AuxRun.cons_iff.1 hrun
      rcases lt_trichotomy cur.data r.data with hlt | heq | hgt
      · obtain ⟨res, hret, hchecked⟩ :=
          insertAuxBody_checked hpk hown sih hrun' hsort.tail hlt
        have hread : si.moveReadRecord .aux cur.nextPos cur = (a, .aux) :=
          moveReadRecord_aux_of_readLink ha hnext cur
        refine ⟨res, .step (.of_eq fun _ => ?_) hret, hchecked.congr ?_⟩
        · simp only [insertAuxBody, if_pos hnext, if_neg hlt.ne,
            if_neg (fun hc : prev.data < r.data ∧ r.data < cur.data => hlt.not_gt hc.2), hread]
        · simp only [List.exists_mem_cons_iff, hlt.ne, false_or]
      · refine ⟨si.insertDuplicateUnlessPk .aux cur r, .done (.of_eq fun _ => ?_),
          .duplicate hpk ⟨cur, .head _, heq⟩ .aux⟩
        simp only [insertAuxBody, if_pos hnext, if_pos heq]
      · refine ⟨(.ok (), si.insertAfterRecord .aux prev r sih false), .done (.of_eq fun _ => ?_),
          .done (habove hgt)⟩
        simp only [insertAuxBody, if_pos hnext, if_neg hgt.ne', if_pos (And.intro hprev hgt)]

/-- `insertAux` into the run that hangs off a record of the index file, or off the header. -/
theorem insertAux_checked (hpk : si.pk = true)
    (hown : ∀ l r, si.readLink l = some r → r.loc = l)
    (hrun : si.AuxRun (if bsr.header then bsr.sih.link else p.link) A l') (hA : A ≠ [])
    (hsort : SortedBy (·.data) A) (hlt : bsr.header = false → p.data < r.data) :
    ∃ res, Returns (si.insertAux · .index p r bsr) res ∧ Checked si (∃ x ∈ A, x.data = r.data) res := by
  obtain ⟨a, A, rfl⟩ := List.exists_cons_of_ne_nil hA
  obtain ⟨ha, haf, hrun'⟩ := AuxRun.cons_iff.1 hrun
  have hfile : (if bsr.header then bsr.sih.link else p.link).2 ≠ .indexFile := fun hc =>
    hA ((hrun.file_eq_iff hown).1 hc)
  have hread := moveReadRecord_aux_of_readLink ha hfile default
  have habove : r.data < a.data → ¬ ∃ x ∈ a :: A, x.data = r.data := by
    rintro hra ⟨x, hx, hxr⟩
    rcases List.mem_cons.1 hx with rfl | hx
    · exact hra.ne' hxr
    · exact (hra.trans ((SortedBy.cons_iff.1 hsort).1 x hx)).ne' hxr
  cases hheader : bsr.header with
  | true =>
    rw [hheader, if_pos rfl] at hread
    have hread : si.moveReadRecord .aux bsr.sih.nextPos default = (a, .aux) := hread
    rcases lt_trichotomy a.data r.data with har | heq | hra
    · have hfront : ¬ r.data < a.data := har.not_gt
      cases A with
      | nil =>
        have hnext : a.nextFile = .indexFile := (hrun'.file_eq_iff hown).2 rfl
        refine ⟨(.ok (), si.insertAfterRecord .aux a r bsr.sih false), .of_eq fun n => ?_, .done ?_⟩
        · simp only [insertAux, hheader, if_true, hread, if_neg hfront, if_neg har.ne', if_pos hnext]
        · rintro ⟨x, hx, hxr⟩
          obtain rfl := List.mem_singleton.1 hx
          exact har.ne hxr
      | cons b A =>
        obtain ⟨hb, hbf, hrun''⟩ := AuxRun.cons_iff.1 hrun'
        have hnext : a.nextFile ≠ .indexFile := fun hc => by
          simpa using (hrun'.file_eq_iff hown).1 hc
        have hread' : si.moveReadRecord .aux a.nextPos a = (b, .aux) :=
          moveReadRecord_aux_of_readLink hb hnext a
        obtain ⟨res, hret, hchecked⟩ :=
          insertAuxBody_checked hpk hown bsr.sih hrun'' hsort.tail har
        refine ⟨res, hret.returns.congr fun n => ?_, hchecked.congr ?_⟩
        · simp only [insertAux, hheader, if_true, hread, if_neg hfront, if_neg har.ne',
            if_neg hnext, hread']
        · simp only [List.exists_mem_cons_iff, har.ne, false_or]
    · refine ⟨si.insertDuplicateUnlessPk .aux a r, .of_eq fun n => ?_,
        .duplicate hpk ⟨a, .head _, heq⟩ .aux⟩
      simp only [insertAux, hheader, if_true, hread, if_neg heq.not_gt, if_pos heq.symm]
    · refine ⟨(.ok (), si.insertAfterRecord .aux p r bsr.sih true), .of_eq fun n => ?_,
        .done (habove hra)⟩
      simp only [insertAux, hheader, if_true, hread, if_pos hra]
  | false =>
    rw [hheader, if_neg Bool.false_ne_true] at hread
    have hread : si.moveReadRecord .aux p.nextPos default = (a, .aux) := hread
    have hpr := hlt hheader
    by_cases hra : r.data < a.data
    · refine ⟨(.ok (), si.insertAfterRecord .index p r bsr.sih false), .of_eq fun n => ?_,
        .done (habove hra)⟩
      simp only [insertAux, hheader, Bool.false_eq_true, if_false, hread,
        if_pos (And.intro hpr hra)]
    · obtain ⟨res, hret, hchecked⟩ := insertAuxBody_checked hpk hown bsr.sih hrun' hsort hpr
      refine ⟨res, hret.returns.congr fun n => ?_, hchecked⟩
      simp only [insertAux, hheader, Bool.false_eq_true, if_false, hread,
        if_neg (fun hc : p.data < r.data ∧ r.data < a.data => hra hc.2)]

/-- A key that has a gap is stored when the run there has it. -/
theorem Gap.stored_iff {P S : List (SequentialIndexRecord κ)} {l : Int × FilePos}
    (hg : si.Gap c k P l A l' S) : (∃ x ∈ c, x.data = k) ↔ ∃ x ∈ A, x.data = k := by
  rw [hg.eq]
  constructor
  · rintro ⟨x, hx, hxk⟩
    rcases List.mem_append.1 hx with hx | hx
    · exact absurd hxk (hg.lt x hx).ne
    · rcases List.mem_append.1 hx with hx | hx
      · exact ⟨x, hx, hxk⟩
      · exact absurd hxk (hg.gt x hx).ne'
  · rintro ⟨x, hx, hxk⟩
    exact ⟨x, by simp [hx], hxk⟩

/-- The run of a gap is in key order. -/
theorem Gap.sorted_run {P S : List (SequentialIndexRecord κ)} {l : Int × FilePos}
    (hg : si.Gap c k P l A l' S) (hsort : SortedBy (·.data) c) : SortedBy (·.data) A := by
  rw [hg.eq] at hsort
  exact (SortedBy.append_iff.1 (SortedBy.append_iff.1 hsort).2.1).1

/-- The branches of `add` on a primary-key index. -/
theorem addAt_checked (h : si.Threaded c) (hpk : si.pk = true) (hf : Found si r.data bsr) :
    ∃ res, Returns (si.addAt · r bsr) res ∧ Checked si (∃ x ∈ c, x.data = r.data) res := by
  have hstream := hf.file_eq
  by_cases hcur : bsr.location = .recCur
  · obtain ⟨x, hx, hxr⟩ := (hf.recCur_iff (h.searchable hf.nonempty)).1 hcur
    refine ⟨si.insertDuplicateUnlessPk .index bsr.sir r, .of_eq fun n => ?_,
      .duplicate hpk ⟨x, (h.mem_index_iff.1 hx).1, hxr⟩ .index⟩
    have hheader : bsr.header = false := by
      cases hf with
      | cur _ _ _ header => exact header
      | first _ location => rw [location] at hcur; cases hcur
      | prev _ _ _ header => exact header
      | next _ _ _ header => exact header
    simp [addAt, hcur, hheader, hstream]
  cases h.gapAt hf hcur with
  | header A S l' location header sih gap next =>
    by_cases hA : A = []
    · have hfile : si.header.nextFile = .indexFile := (gap.run.file_eq_iff h.own).2 hA
      refine ⟨(.ok (), si.insertAfterRecord .index bsr.sirPrev r bsr.sih true),
        .of_eq fun n => ?_, .done ?_⟩
      · simp [addAt, location, header, sih, hfile, hstream]
      · rw [gap.stored_iff, hA]
        rintro ⟨x, hx, -⟩
        cases hx
    · have hfile : si.header.nextFile ≠ .indexFile := fun hc =>
        hA ((gap.run.file_eq_iff h.own).1 hc)
      have hrun : si.AuxRun (if bsr.header then bsr.sih.link else bsr.sirPrev.link) A l' := by
        rw [header, if_pos rfl, sih]
        exact gap.run
      obtain ⟨res, hret, hchecked⟩ := insertAux_checked hpk h.own hrun hA (gap.sorted_run h.sorted)
        (fun hc => by rw [header] at hc; cases hc)
      refine ⟨res, hret.congr fun n => ?_, hchecked.congr gap.stored_iff⟩
      simp [addAt, location, header, sih, hfile, hstream]
  | record P A S l' location header mem gap =>
    have hadd : ∀ n, si.addAt n r bsr =
        if (gapRecord bsr).nextFile = .indexFile then
          some (.ok (), si.insertAfterRecord .index (gapRecord bsr) r bsr.sih false)
        else si.insertAux n .index (gapRecord bsr) r bsr := fun n => by
      rcases location with hloc | hloc <;> simp [addAt, gapRecord, hloc, header, hstream]
    by_cases hA : A = []
    · have hfile : (gapRecord bsr).nextFile = .indexFile := (gap.run.file_eq_iff h.own).2 hA
      refine ⟨(.ok (), si.insertAfterRecord .index (gapRecord bsr) r bsr.sih false),
        .of_eq fun n => ?_, .done ?_⟩
      · rw [hadd, if_pos hfile]
      · rw [gap.stored_iff, hA]
        rintro ⟨x, hx, -⟩
        cases hx
    · have hfile : (gapRecord bsr).nextFile ≠ .indexFile := fun hc =>
        hA ((gap.run.file_eq_iff h.own).1 hc)
      have hrun : si.AuxRun (if bsr.header then bsr.sih.link else (gapRecord bsr).link) A l' := by
        rw [header, if_neg Bool.false_ne_true]
        exact gap.run
      obtain ⟨res, hret, hchecked⟩ := insertAux_checked hpk h.own hrun hA (gap.sorted_run h.sorted)
        (fun _ => gap.lt _ (by simp))
      exact ⟨res, hret.congr fun n => by rw [hadd, if_neg hfile], hchecked.congr gap.stored_iff⟩

/-- `add` up to its closing rebuild. -/
theorem add_eq_of_found (hret : Returns (si.binarySearch · k) bsr)
    (hf : Found si k bsr) {v : Int} {res : Outcome (SequentialIndex κ) Unit}
    (hat : Returns (si.addAt · { data := k, rawPos := v, dupPos := endOfFile } bsr) res) :
    ∀ᶠ n in Filter.atTop, si.add n k v = addEnd n true [v] res := by
  filter_upwards [hret, hat] with n h1 h2
  rw [add, h1]
  simp only [Option.bind_eq_bind, Option.bind_some, h2, if_neg hf.location_ne]

/-- An insertion that has been made does not throw. -/
theorem addEnd_ok {n : Nat} {rebuild : Bool} {records : List Int} {e : Exn}
    {si' : SequentialIndex κ} :
    addEnd n rebuild records (.ok (), si) ≠ some (.error e, si') := by
  intro h
  rw [addEnd] at h
  split_ifs at h
  · obtain ⟨s, -, heq⟩ := Option.map_eq_some_iff.1 h
    cases heq
  · cases h

/-- `add` of a stored primary key. -/
theorem add_refused (h : si.Threaded c) (hpk : si.pk = true) (hk : ∃ r ∈ c, r.data = k) (v : Int) :
    Returns (si.add · k v) (.error (.runtimeError "Couldn't add"), si) := by
  have hne : si.indexFile ≠ [] := fun he => by
    obtain ⟨r, hr, -⟩ := hk
    rw [h.empty he] at hr
    cases hr
  obtain ⟨bsr, hret, hf⟩ := binarySearch_found (h.searchable hne) k
  obtain ⟨res, hat, hchecked⟩ := addAt_checked
    (r := { data := k, rawPos := v, dupPos := endOfFile }) h hpk hf
  cases hchecked with
  | done hno => exact absurd hk hno
  | refused _ =>
    filter_upwards [add_eq_of_found hret hf hat] with n hn
    rw [hn, addEnd]

/-- `add` of another key does not throw. -/
theorem add_not_refused (h : si.Threaded c) (hpk : si.pk = true) (hk : ¬ ∃ r ∈ c, r.data = k)
    (v : Int) (e : Exn) (si' : SequentialIndex κ) : ¬ Returns (si.add · k v) (.error e, si') := by
  intro hadd
  by_cases he : si.indexFile = []
  · obtain ⟨n, hn⟩ := hadd.exists
    simp only [add, binarySearch_empty he, Option.bind_eq_bind, Option.bind_some, addAt] at hn
    exact addEnd_ok hn
  · obtain ⟨bsr, hret, hf⟩ := binarySearch_found (h.searchable he) k
    obtain ⟨res, hat, hchecked⟩ := addAt_checked
      (r := { data := k, rawPos := v, dupPos := endOfFile }) h hpk hf
    cases hchecked with
    | refused hstored => exact hk hstored
    | done _ =>
      obtain ⟨n, hn, hn'⟩ := (hadd.and (add_eq_of_found hret hf hat)).exists
      exact addEnd_ok (hn'.symm.trans hn)

/-- The records of a chain after a header has gone over the first record of the overflow file. -/
def overlaid (header : SequentialIndexHeader) (r : SequentialIndexRecord κ) :
    SequentialIndexRecord κ :=
  if r.loc = (auxLayout.pos 0, .auxFile) then overlayHeader header r else r

/-- The header over the overflow file leaves the links. -/
theorem Threaded.overlay (h : si.Threaded c) (header : SequentialIndexHeader)
    (x : SequentialIndexRecord κ) :
    Path ({ si with auxFile := (si.auxFile ++ [x]).modifyHead (overlayHeader header) } :
      SequentialIndex κ).readLink (·.link) si.header.link (c.map (overlaid header)) endLink := by
  refine Path.map h.chain (fun l r _ hr => ?_) fun r => ?_
  · have hloc := h.own l r hr
    obtain ⟨pos, f⟩ := l
    rcases file_of_readLink hr with hf | hf <;> cases hf
    · have hne : r.loc ≠ (auxLayout.pos 0, .auxFile) := by
        rw [hloc]
        exact fun he => nomatch (Prod.mk.inj he).2
      rw [overlaid, if_neg hne]
      exact hr
    · have hread : auxLayout.read (si.auxFile ++ [x]) pos = some r := Layout.read_append hr
      rw [readLink_aux, Layout.read_modifyHead, hread, Option.map_some, overlaid, hloc]
      obtain ⟨i, -, rfl, -⟩ := Layout.read_eq_some (L := auxLayout) hr
      simp only [Layout.slot?_pos, Option.some.injEq, Prod.mk.injEq, and_true]
      exact if_congr ⟨fun hi => by rw [hi], Layout.pos_inj⟩ rfl rfl
  · unfold overlaid
    split_ifs <;> rfl

/-- `add` of a key in front of the record that the header points to comes back, and the overflow
file has changed. -/
theorem add_misplaced (h : si.WellFormed c) (hmis : si.HeaderMisplaced k) (v : Int) :
    ∃ records si', Returns (si.add · k v) (.ok records, si') ∧ si' ≠ si := by
  obtain ⟨hfile, x, hx, hlt⟩ := hmis
  have ht := h.linked.threaded
  have hmem : x ∈ si.auxFile := mem_aux_of_readLink hx hfile
  have hne : si.indexFile ≠ [] := fun he => by
    rw [h.auxEmpty he] at hmem
    cases hmem
  have hfirst : ∀ r ∈ si.indexFile, k < r.data := fun r hr =>
    hlt.trans_le (ht.head_le hx (ht.mem_index_iff.1 hr).1).2
  obtain ⟨bsr, hret, hf⟩ := binarySearch_found (ht.searchable hne) k
  have hheader := (hf.header_iff (ht.searchable hne)).2 hfirst
  let sir : SequentialIndexRecord κ := { data := k, rawPos := v, dupPos := endOfFile }
  let si1 := si.insertAfterRecord .aux bsr.sirPrev sir si.header true
  have hread : si.moveReadRecord .aux si.header.nextPos default = (x, .aux) :=
    moveReadRecord_aux_of_readLink hx (fun hc : si.header.nextFile = _ => by
      rw [hc] at hfile; cases hfile) default
  have hat : Returns (si.addAt · sir bsr) (.ok (), si1) := by
    cases hf with
    | cur _ _ _ header => rw [header] at hheader; cases hheader
    | prev _ _ _ header => rw [header] at hheader; cases hheader
    | next _ _ _ header => rw [header] at hheader; cases hheader
    | first hi location header sih =>
      refine .of_eq fun n => ?_
      simp only [addAt, location, header, sih, hfile, true_and, if_true, insertAux, hread]
      rw [if_neg (by decide), if_pos hlt]
  have hdups : ∀ r ∈ c.map (overlaid ⟨auxLayout.endPos si.auxFile, .auxFile⟩),
      ∃ dups, DupChain duplicatesLayout si.duplicatesFile r.dupPos dups := fun r hr => by
    obtain ⟨r0, hr0, rfl⟩ := List.mem_map.1 hr
    obtain ⟨dups, hd⟩ := h.duplicates r0 hr0
    refine ⟨dups, ?_⟩
    unfold overlaid
    split_ifs <;> exact hd
  have hpath : Path si1.readLink (·.link) si.header.link
      (c.map (overlaid ⟨auxLayout.endPos si.auxFile, .auxFile⟩)) endLink := ht.overlay _ _
  obtain ⟨si2, hrebuild, -, hempty, -⟩ : ∃ si', Returns si1.rebuild si' ∧ si'.pk = si1.pk ∧
      si'.auxFile = [] ∧ _ := rebuild_returns hpath hdups
  have haux : si.auxFile ≠ [] := List.ne_nil_of_mem hmem
  have hlonger : si1.auxFile.length = si.auxFile.length + 1 := by
    show ((si.auxFile ++ [_]).modifyHead _).length = _
    rw [List.length_modifyHead, List.length_append, List.length_singleton]
  have hend : ∃ records si', Returns (addEnd · true [v] (.ok (), si1)) (.ok records, si') ∧
      si' ≠ si := by
    by_cases hvalid : si1.validNumberRecords = true
    · refine ⟨[v], si1, .of_eq fun n => ?_, fun heq => ?_⟩
      · rw [addEnd, if_neg fun hc => by simp [hvalid] at hc]
      · rw [heq] at hlonger
        omega
    · refine ⟨[v], si2, (hrebuild.map (Except.ok [v], ·)).congr fun n => ?_, fun heq => ?_⟩
      · rw [addEnd, if_pos ⟨rfl, by simpa using hvalid⟩]
      · rw [heq] at hempty
        exact haux hempty
  obtain ⟨records, si', hend, hne'⟩ := hend
  refine ⟨records, si', ?_, hne'⟩
  filter_upwards [add_eq_of_found hret hf hat, hend] with n hn hn'
  rw [hn, hn']

omit [KeyType κ] in
/-- An insertion that throws has changed nothing, whatever the files are. -/
theorem insertDuplicateUnlessPk_error {file : Stream} {e : Exn} {si' : SequentialIndex κ}
    (h : si.insertDuplicateUnlessPk file p r = (.error e, si')) : si' = si := by
  unfold insertDuplicateUnlessPk at h
  split_ifs at h
  · cases h
    rfl
  · cases h

/-- The same for the walk of `insertAux`. -/
theorem insertAuxLoop_error {sih : SequentialIndexHeader} {n : Nat} {e : Exn}
    {si' : SequentialIndex κ} {s : SequentialIndexRecord κ × SequentialIndexRecord κ × Stream}
    (h : loop (si.insertAuxBody r sih) n s = some (.error e, si')) : si' = si := by
  refine insertAuxLoop_of_inv (I := fun _ _ _ => True)
    (Q := fun out => ∀ e, out.1 = .error e → out.2 = si) (fun _ _ _ _ => trivial)
    (fun prev cur _ _ e he => ?_) (fun _ _ _ _ _ he => nomatch he)
    (fun _ _ _ _ _ _ he => nomatch he)
    trivial h e rfl
  exact insertDuplicateUnlessPk_error (Prod.ext he rfl)

/-- The same for `insertAux`. -/
theorem insertAux_error {n : Nat} {file : Stream} {e : Exn} {si' : SequentialIndex κ}
    (h : si.insertAux n file p r bsr = some (.error e, si')) : si' = si := by
  simp only [insertAux] at h
  split_ifs at h
  · cases h
  · exact insertDuplicateUnlessPk_error (Option.some.inj h)
  · cases h
  · exact insertAuxLoop_error h
  · cases h
  · exact insertAuxLoop_error h

/-- The same for the branches of `add`. -/
theorem addAt_error {n : Nat} {e : Exn} {si' : SequentialIndex κ}
    (h : si.addAt n r bsr = some (.error e, si')) : si' = si := by
  unfold addAt at h
  split at h
  · cases h
  · split_ifs at h
    · cases h
    · exact insertAux_error h
    · cases h
    · exact insertAux_error h
    · exact insertDuplicateUnlessPk_error (Option.some.inj h)
    · cases h
    · exact insertAux_error h

/-- A call of `add` that throws. -/
theorem add_error {n : Nat} {v : Int} {e : Exn} {si' : SequentialIndex κ}
    (h : si.add n k v = some (.error e, si')) : si' = si := by
  unfold add at h
  obtain ⟨bsr, -, h⟩ := Option.bind_eq_some_iff.1 h
  obtain ⟨⟨res, si1⟩, hat, h⟩ := Option.bind_eq_some_iff.1 h
  cases res with
  | ok u => exact absurd h addEnd_ok
  | error ex =>
    cases h
    exact addAt_error hat

/-- On every primary-key index whose chain is in key order and visits the index file in physical
order: `add` throws for the keys of the chain, wherever their records are, and for no other, and
when it throws no file has changed. When the chain visits every overflow record and the duplicates
of its records end, `add` comes back. -/
theorem add_throws_iff (h : si.Threaded c) (hpk : si.pk = true) (k : κ) (v : Int) :
    ((∃ e si', Returns (si.add · k v) (.error e, si')) ↔ ∃ r ∈ c, r.data = k) ∧
    (∀ e si', Returns (si.add · k v) (.error e, si') → si' = si) ∧
    (si.WellFormed c → ∃ res si', Returns (si.add · k v) (res, si')) := by
  refine ⟨⟨?_, fun hk => ⟨_, si, add_refused h hpk hk v⟩⟩, fun e si' hadd => ?_, fun hwf => ?_⟩
  · rintro ⟨e, si', hadd⟩
    by_contra hk
    exact add_not_refused h hpk hk v e si' hadd
  · obtain ⟨n, hn⟩ := hadd.exists
    exact add_error hn
  · by_cases hmis : si.HeaderMisplaced k
    · obtain ⟨records, si', hret, -⟩ := add_misplaced hwf hmis v
      exact ⟨_, si', hret⟩
    · obtain ⟨m, hm⟩ := exists_contents hwf.sorted hwf.duplicates
      obtain ⟨⟨res, si'⟩, hret, -⟩ := add_returns hwf hm v hmis
      exact ⟨res, si', hret⟩

/-- A primary-key index with an overflow record behind its first record, whose key is added
again. -/
theorem add_throws_iff_sample : ∃ si : SequentialIndex Int, si.auxFile ≠ [] ∧
    ∃ e si', Returns (si.add · 15 0) (.error e, si') := by
  have hwf := sampleIndex_wellFormed
  let si : SequentialIndex Int := { sampleIndex with pk := true }
  have h : si.Threaded [⟨⟨10, 100, 0⟩, 24, .indexFile, 0, .auxFile⟩,
      ⟨⟨15, 150, -1⟩, 0, .auxFile, 112, .indexFile⟩,
      ⟨⟨20, 200, -1⟩, 112, .indexFile, -1, .indexFile⟩] :=
    ⟨.cons rfl (.cons rfl (.cons rfl .nil)), hwf.sorted, own_of_files (by decide) (by decide),
      hwf.index, by decide⟩
  exact ⟨si, by decide, (add_throws_iff h rfl 15 0).1.2 ⟨_, .tail _ (.head _), rfl⟩⟩

end SequentialIndex

end Rdbms
