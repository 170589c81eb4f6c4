import Rdbms.Sequential.Insert
import Rdbms.Sequential.Erase

/-!
# Removal is exact

`erase` finds the record of a key and the record or header in front of it, and links past it
(`Erased`); what it leaves is a chain in key order, so the rebuild that follows makes it well formed
again. The exception is a record in the overflow chain of the header: there `erase` reads the index
file at an offset of the overflow file.
-/

namespace Rdbms

namespace SequentialIndex
variable {κ : Type} [KeyType κ] {si si' : SequentialIndex κ}
  {c c1 c2 : List (SequentialIndexRecord κ)} {p r : SequentialIndexRecord κ} {k : κ}
  {l l' : Int × FilePos}

/-! ## Linking past a record -/

/-- What `erase` makes of a chain: the record of the key is out of it, or the key has none. -/
inductive Erased (si : SequentialIndex κ) (c : List (SequentialIndexRecord κ)) (k : κ) :
    List Int × SequentialIndex κ → Prop
  | found (c1 c2 : List (SequentialIndexRecord κ)) {c' : List (SequentialIndexRecord κ)}
      {r : SequentialIndexRecord κ} {si' : SequentialIndex κ} (eq : c = c1 ++ r :: c2) (data : r.data = k)
      (chain : Path si'.readLink (·.link) si'.header.link c' endLink)
      (records : c'.map (·.toRecord) = (c1 ++ c2).map (·.toRecord))
      (duplicates : si'.duplicatesFile = si.duplicatesFile) :
      Erased si c k ([r.rawPos], si')
  | absent (ne : ∀ r ∈ c, r.data ≠ k) : Erased si c k ([], si)

/-- The record behind `p` is linked past. -/
theorem WellFormed.erased_after (h : si.WellFormed (c1 ++ p :: r :: c2))
    (hheader : si'.header = si.header)
    (hp : si'.readLink p.loc = some (p.setNext r.nextPos r.nextFile))
    (hread : ∀ l, l ≠ p.loc → l ≠ r.loc → si'.readLink l = si.readLink l)
    (hdups : si'.duplicatesFile = si.duplicatesFile) :
    si.Erased (c1 ++ p :: r :: c2) r.data ([r.rawPos], si') := by
  have h' : si.WellFormed ((c1 ++ [p]) ++ r :: c2) := by rwa [List.append_assoc]
  have hkeep : ∀ l x, x ∈ c1 ∨ x ∈ c2 → si.readLink l = some x → si'.readLink l = some x := by
    intro l x hx hl
    have hnp : l ≠ p.loc := h.ne_loc (hx.imp_right (.tail r)) hl
    have hnr : l ≠ r.loc := h'.ne_loc (hx.imp_left (List.mem_append_left _)) hl
    rw [hread l hnp hnr, hl]
  obtain ⟨j, hbefore, hafter⟩ := Path.of_append h.chain
  obtain ⟨hpj, hafter⟩ := Path.cons_iff.1 hafter
  obtain ⟨-, hafter⟩ := Path.cons_iff.1 hafter
  have hj : p.loc = j := h.own j p hpj
  have hbefore' : Path si'.readLink (·.link) si'.header.link c1 p.loc := by
    rw [hheader, hj]
    exact hbefore.congr fun l x hx => hkeep l x (.inl hx)
  have hafter' : Path si'.readLink (·.link) r.link c2 endLink :=
    hafter.congr fun l x hx => hkeep l x (.inr hx)
  refine .found (c1 ++ [p]) c2 (by rw [List.append_assoc]; rfl) rfl
    (hbefore'.append (.cons hp hafter')) ?_ hdups
  simp only [List.map_append, List.map_cons, List.append_assoc]
  rfl

/-- The first record of the chain is linked past. -/
theorem WellFormed.erased_first (h : si.WellFormed (r :: c2)) (hheader : si'.header.link = r.link)
    (hread : ∀ l, l ≠ r.loc → si'.readLink l = si.readLink l)
    (hdups : si'.duplicatesFile = si.duplicatesFile) :
    si.Erased (r :: c2) r.data ([r.rawPos], si') := by
  have h' : si.WellFormed ([] ++ r :: c2) := h
  obtain ⟨-, hafter⟩ := Path.cons_iff.1 h.chain
  refine .found [] c2 rfl rfl ?_ rfl hdups
  rw [hheader]
  refine hafter.congr fun l x hx hl => ?_
  rw [hread l (h'.ne_loc (.inr hx) hl), hl]

/-- Writing the record `p` with the link of the record behind it, and that record without its
link. -/
theorem WellFormed.erased_writes (h : si.WellFormed (c1 ++ p :: r :: c2)) {s1 s2 : Stream}
    (hs1 : s1 = p.currentFile.stream) (hs2 : s2 = r.currentFile.stream) :
    si.Erased (c1 ++ p :: r :: c2) r.data ([r.rawPos],
      ((si.moveWriteRecord s1 p.currentPos (p.setNext r.nextPos r.nextFile)).1.moveWriteRecord s2
        r.currentPos (r.setNext endOfFile .indexFile)).1) := by
  subst hs1 hs2
  have hp := h.linked.readLink_loc (r := p) (by simp)
  have hr := h.linked.readLink_loc (r := r) (by simp)
  have hne : r.loc ≠ p.loc := h.ne_loc (.inr (.head _)) hr
  have hread1 := readLink_moveWriteRecord hp (p.setNext r.nextPos r.nextFile)
  have hr1 : (si.moveWriteRecord p.currentFile.stream p.currentPos
      (p.setNext r.nextPos r.nextFile)).1.readLink r.loc = some r := by
    have := hread1 r.loc
    rw [if_neg hne, hr] at this
    exact this
  have hread2 := readLink_moveWriteRecord hr1 (r.setNext endOfFile .indexFile)
  refine h.erased_after (by simp) ?_ (fun l hlp hlr => ?_) (by simp)
  · refine (hread2 p.loc).trans ?_
    rw [if_neg hne.symm]
    exact (hread1 p.loc).trans (if_pos rfl)
  · refine (hread2 l).trans ?_
    rw [if_neg hlr]
    exact (hread1 l).trans (if_neg hlp)

/-! ## Walks through the overflow file -/

omit [KeyType κ] in
/-- The walk to the end of an overflow chain. -/
theorem lastAuxBody_run {B : List (SequentialIndexRecord κ)} {a : SequentialIndexRecord κ}
    (hrun : si.AuxRun a.link B l') (hown : ∀ l r, si.readLink l = some r → r.loc = l) :
    LoopReturns (fun _ => si.lastAuxBody) (a, .aux)
      ((a :: B).getLast (List.cons_ne_nil a B), .aux) := by
  induction B generalizing a with
  | nil =>
    have hfile : a.nextFile = .indexFile := (hrun.file_eq_iff hown).2 rfl
    refine .done (.of_eq fun _ => ?_)
    rw [lastAuxBody, if_neg (not_not.2 hfile)]
    rfl
  | cons b B ih =>
    have hfile : a.nextFile ≠ .indexFile := fun hf =>
      List.cons_ne_nil b B ((hrun.file_eq_iff hown).1 hf)
    obtain ⟨hb, -, hrun'⟩ := AuxRun.cons_iff.1 hrun
    have hread : si.moveReadRecord .aux a.nextPos a = (b, .aux) :=
      moveReadRecord_aux_of_readLink hb hfile a
    rw [List.getLast_cons (List.cons_ne_nil b B)]
    refine .step (.of_eq fun _ => ?_) (ih hrun')
    rw [lastAuxBody, if_pos hfile, hread]

/-- The last record of a run that is not empty. -/
theorem lastAux_returns {A : List (SequentialIndexRecord κ)} (hrun : si.AuxRun l A l')
    (hown : ∀ l r, si.readLink l = some r → r.loc = l) (hA : A ≠ []) :
    Returns (si.lastAux · l.1) (A.getLast hA, .aux) := by
  cases A with
  | nil => exact absurd rfl hA
  | cons a B =>
    have hfile : l.2 ≠ .indexFile := fun hf => hA ((hrun.file_eq_iff hown).1 hf)
    obtain ⟨ha, -, hrun'⟩ := AuxRun.cons_iff.1 hrun
    have hread : si.moveReadRecord .aux l.1 default = (a, .aux) :=
      moveReadRecord_aux_of_readLink ha hfile default
    refine (lastAuxBody_run hrun' hown).returns.congr fun fuel => ?_
    rw [lastAux, hread]

/-- The record behind `q` is the one. -/
theorem WellFormed.eraseAux_found {q a : SequentialIndexRecord κ}
    (h : si.WellFormed (c1 ++ q :: a :: c2)) (haux : a.currentFile = .auxFile) :
    ∃ out, LoopReturns (fun _ => si.eraseAuxBody .index a.data) (q, a, .aux) out ∧
      si.Erased (c1 ++ q :: a :: c2) a.data out := by
  have hs2 : Stream.aux = a.currentFile.stream := by
    rw [haux]
    rfl
  have hq : si.readLink q.loc = some q := h.linked.readLink_loc (by simp)
  -- the write of `q` leaves its stream good
  have hwrite := congrArg Prod.snd
    (moveWriteRecord_of_readLink hq (q.setNext a.nextPos a.nextFile))
  refine ⟨_, .done (.of_eq fun _ => ?_), h.erased_writes rfl hs2⟩
  by_cases hfile : q.currentFile = .indexFile
  · simp only [eraseAuxBody, if_true, hfile, FilePos.stream]
  · have hloc : q.loc.2 ≠ .indexFile := hfile
    simp only [FilePos.stream, if_neg hloc] at hwrite
    simp only [eraseAuxBody, if_true, if_neg hfile, FilePos.stream]
    rw [show (si.moveWriteRecord .aux q.currentPos (q.setNext a.nextPos a.nextFile)).2 = .aux
      from hwrite]

/-- The walk stops without having found the key. -/
theorem eraseAux_absent {q a : SequentialIndexRecord κ} {s t : Stream} (hne : a.data ≠ k)
    (hstop : a.nextFile = .indexFile ∨ a.nextPos = endOfFile ∨ k < a.data) :
    LoopReturns (fun _ => si.eraseAuxBody s k) (q, a, t) ([], si) := by
  refine .done (.of_eq fun _ => ?_)
  rw [eraseAuxBody, if_neg hne, if_pos hstop]

/-- The walk that looks for the key in an overflow chain. -/
theorem WellFormed.eraseAux_run {B S : List (SequentialIndexRecord κ)}
    {q a : SequentialIndexRecord κ} (h : si.WellFormed (c1 ++ q :: a :: (B ++ S)))
    (haux : a.currentFile = .auxFile) (hrun : si.AuxRun a.link B l')
    (hlt : ∀ x ∈ c1 ++ [q], x.data < k) (hgt : ∀ x ∈ S, k < x.data) :
    ∃ out, LoopReturns (fun _ => si.eraseAuxBody .index k) (q, a, .aux) out ∧
      si.Erased (c1 ++ q :: a :: (B ++ S)) k out := by
  induction B generalizing c1 q a with
  | nil =>
    by_cases hk : a.data = k
    · subst hk
      exact h.eraseAux_found haux
    · have hfile : a.nextFile = .indexFile := (hrun.file_eq_iff h.own).2 rfl
      refine ⟨_, eraseAux_absent hk (.inl hfile), .absent fun x hx => ?_⟩
      rw [← List.singleton_append, ← List.append_assoc, List.mem_append, List.mem_cons] at hx
      rcases hx with hx | rfl | hx
      · exact (hlt x hx).ne
      · exact hk
      · exact (hgt x hx).ne'
  | cons b B ih =>
    have h' : si.WellFormed ((c1 ++ [q]) ++ a :: b :: (B ++ S)) := by rwa [List.append_assoc]
    by_cases hk : a.data = k
    · subst hk
      exact h.eraseAux_found haux
    rcases lt_or_gt_of_ne hk with hlow | hhigh
    · -- on to the next record
      obtain ⟨hb, hbaux, hrun'⟩ := AuxRun.cons_iff.1 hrun
      have hfile : a.nextFile ≠ .indexFile := fun hf =>
        List.cons_ne_nil b B ((hrun.file_eq_iff h.own).1 hf)
      have hread : si.moveReadRecord .aux a.nextPos a = (b, .aux) :=
        moveReadRecord_aux_of_readLink hb hfile a
      have hstop : ¬ (a.nextFile = .indexFile ∨ a.nextPos = endOfFile ∨ k < a.data) := by
        rintro (hf | he | hc)
        · exact hfile hf
        · exact ne_endOfFile_of_readLink hb he
        · exact hlow.not_gt hc
      obtain ⟨out, hloop, hout⟩ := ih h' hbaux hrun' fun x hx => by
        rcases List.mem_append.1 hx with hx | hx
        · exact hlt x hx
        · rw [List.mem_singleton.1 hx]
          exact hlow
      rw [List.append_assoc] at hout
      refine ⟨out, .step (.of_eq fun _ => ?_) hloop, hout⟩
      rw [eraseAuxBody, if_neg hk, if_neg hstop, hread]
    · refine ⟨_, eraseAux_absent hk (.inr (.inr hhigh)), .absent fun x hx => ?_⟩
      rw [← List.singleton_append, ← List.append_assoc, List.mem_append, List.mem_cons] at hx
      rcases hx with hx | rfl | hx
      · exact (hlt x hx).ne
      · exact hk
      · exact (hhigh.trans (h'.sorted.around.2 x hx)).ne'

/-! ## A record of the index file -/

/-- Behind as many index records as there are in `P`, a run leads to the next one. -/
theorem Linked.next_index (h : si.Linked c) {P A S : List (SequentialIndexRecord κ)}
    (heq : c = P ++ (A ++ S)) (hrun : si.AuxRun l A l')
    (hS : Path si.readLink (·.link) l' S endLink) {i : Nat} (hi : i < si.indexFile.length)
    (hP : (P.filter (·.currentFile = .indexFile)).length = i) :
    ∃ S', S = si.indexFile[i] :: S' := by
  have hA : A.filter (·.currentFile = .indexFile) = [] :=
    List.filter_eq_nil_iff.2 fun a ha => by simp [hrun.aux a ha]
  have hfile : P.filter (·.currentFile = .indexFile) ++ S.filter (·.currentFile = .indexFile) =
      si.indexFile := by
    rw [← h.index, heq, List.filter_append, List.filter_append, hA, List.nil_append]
  cases S with
  | nil =>
    rw [List.filter_nil, List.append_nil] at hfile
    rw [← hfile, hP] at hi
    exact absurd hi (lt_irrefl i)
  | cons s S =>
    have hs := h.own _ _ (Path.cons_iff.1 hS).1
    have hsf : s.currentFile = .indexFile := (Prod.ext_iff.1 hs).2.trans hrun.file
    have hget : si.indexFile[i]? = some s := by
      rw [← hfile, List.getElem?_append_right hP.le, hP, Nat.sub_self,
        List.filter_cons_of_pos (by simp [hsf])]
      rfl
    rw [List.getElem?_eq_getElem hi, Option.some_inj] at hget
    exact ⟨S, by rw [hget]⟩

/-- The chain around the first record of the index file. -/
theorem WellFormed.around_first (h : si.WellFormed c) (hi : 0 < si.indexFile.length) :
    ∃ A S l', c = A ++ si.indexFile[0] :: S ∧ si.AuxRun si.header.link A l' := by
  obtain ⟨A, S, l', rfl, hrun, hS⟩ := exists_auxRun h.own h.chain
  obtain ⟨S', rfl⟩ := h.linked.next_index (P := []) rfl hrun hS hi rfl
  exact ⟨A, S', l', rfl, hrun⟩

/-- The chain around two neighbours of the index file. -/
theorem WellFormed.around_next (h : si.WellFormed c) {j : Nat} (hj0 : j < si.indexFile.length)
    (hj : j + 1 < si.indexFile.length) :
    ∃ P A S l', c = P ++ si.indexFile[j] :: (A ++ si.indexFile[j + 1] :: S) ∧
      si.AuxRun si.indexFile[j].link A l' := by
  have hin : si.indexFile[j] ∈ si.indexFile := List.getElem_mem hj0
  obtain ⟨P, s, rfl⟩ := List.append_of_mem (h.linked.mem_index_iff.1 hin).1
  obtain ⟨i, -, hs⟩ := Path.of_append h.chain
  obtain ⟨-, hs⟩ := Path.cons_iff.1 hs
  obtain ⟨A, S, l', rfl, hrun, hS⟩ := exists_auxRun h.own hs
  have hmem : si.indexFile[j].currentFile = .indexFile :=
    (h.linked.mem_index_iff.1 hin).2
  have hcount : (P.filter (·.currentFile = .indexFile)).length = j := by
    have hget : si.indexFile[(P.filter (·.currentFile = .indexFile)).length]? =
        some si.indexFile[j] := by
      conv_lhs => rw [← h.index]
      rw [List.filter_append, List.getElem?_append_right le_rfl, Nat.sub_self,
        List.filter_cons_of_pos (by simp [hmem])]
      rfl
    obtain ⟨hlt, heq⟩ := List.getElem?_eq_some_iff.1 hget
    exact (h.linked.sorted_index.nodup.getElem_inj_iff).1 heq
  obtain ⟨S', rfl⟩ := h.linked.next_index (P := P ++ [si.indexFile[j]])
    (by rw [List.append_assoc]; rfl) hrun hS hj (by simp [hmem, hcount])
  exact ⟨P, A, S', l', rfl, hrun⟩

/-- The first record of the index file, when the header links to it. -/
theorem WellFormed.erased_header (h : si.WellFormed (r :: c2)) (hr : r.currentFile = .indexFile) :
    si.Erased (r :: c2) r.data ([r.rawPos],
      ((si.writeHeader .index ⟨r.nextPos, r.nextFile⟩).moveWriteRecord .index r.currentPos
        (r.setNext endOfFile .indexFile)).1) := by
  have hread : (si.writeHeader .index ⟨r.nextPos, r.nextFile⟩).readLink r.loc = some r :=
    h.linked.readLink_loc (.head c2)
  have hfile : Stream.index = r.loc.2.stream := by
    show Stream.index = r.currentFile.stream
    rw [hr]
    rfl
  have hwrite := readLink_moveWriteRecord hread (r.setNext endOfFile .indexFile)
  rw [← hfile] at hwrite
  exact h.erased_first (congrArg (·.link) header_moveWriteRecord)
    (fun l hl => (hwrite l).trans (if_neg hl)) duplicatesFile_moveWriteRecord

/-- The first record of the index file, behind the last overflow record of the header. -/
theorem WellFormed.erased_behind (h : si.WellFormed (c1 ++ p :: r :: c2))
    (hp : p.currentFile = .auxFile) :
    si.Erased (c1 ++ p :: r :: c2) r.data ([r.rawPos],
      (si.moveWriteRecord .aux p.currentPos (p.setNext r.nextPos r.nextFile)).1) := by
  have hread := h.linked.readLink_loc (r := p) (by simp)
  have hfile : Stream.aux = p.loc.2.stream := by
    show Stream.aux = p.currentFile.stream
    rw [hp]
    rfl
  have hwrite := readLink_moveWriteRecord hread (p.setNext r.nextPos r.nextFile)
  rw [← hfile] at hwrite
  exact h.erased_after header_moveWriteRecord ((hwrite p.loc).trans (if_pos rfl))
    (fun l hl _ => (hwrite l).trans (if_neg hl)) duplicatesFile_moveWriteRecord

/-- `erase` of the first record of the index file. -/
theorem WellFormed.eraseCur_first (h : si.WellFormed c) (hi : 0 < si.indexFile.length)
    {bsr : BinarySearchResponse κ} (hgood : bsr.file = .index) (hsir : bsr.sir = si.indexFile[0]) :
    ∃ out, Returns (si.eraseCur · bsr) out ∧ si.Erased c bsr.sir.data out := by
  obtain ⟨hpos, hfile⟩ := Prod.ext_iff.1 (h.own _ _ (readLink_index_getElem hi))
  obtain ⟨A, S, l', rfl, hrun⟩ := h.around_first hi
  rw [← hsir] at h hpos hfile ⊢
  have hfirst : bsr.sir.currentPos = sequentialHeaderSize := hpos
  by_cases hheader : si.header.nextFile = .indexFile
  · obtain rfl := (hrun.file_eq_iff h.own).1 hheader
    refine ⟨_, .of_eq fun fuel => ?_, h.erased_header hfile⟩
    simp only [eraseCur, hgood, if_pos hfirst, readHeader, if_true, if_pos hheader]
    rfl
  · have hA : A ≠ [] := fun hA => hheader ((hrun.file_eq_iff h.own).2 hA)
    have hlast := lastAux_returns hrun h.own hA
    have haux := hrun.aux _ (List.getLast_mem hA)
    have hsplit : A ++ bsr.sir :: S = A.dropLast ++ A.getLast hA :: bsr.sir :: S := by
      conv_lhs => rw [← List.dropLast_append_getLast hA, List.append_assoc]
      rfl
    rw [hsplit] at h ⊢
    refine ⟨_, (hlast.map fun last => ([bsr.sir.rawPos], (si.moveWriteRecord last.2
      last.1.currentPos (last.1.setNext bsr.sir.nextPos bsr.sir.nextFile)).1)).congr fun fuel => ?_,
      h.erased_behind haux⟩
    simp only [eraseCur, hgood, if_pos hfirst, readHeader, if_true, if_neg hheader]
    rfl

/-- `erase` of a later record of the index file. -/
theorem WellFormed.eraseCur_next (h : si.WellFormed c) {j : Nat} (hj0 : j < si.indexFile.length)
    (hj : j + 1 < si.indexFile.length) {bsr : BinarySearchResponse κ} (hgood : bsr.file = .index)
    (hsir : bsr.sir = si.indexFile[j + 1])
    (hprev : bsr.sirPrev = si.indexFile[j]) :
    ∃ out, Returns (si.eraseCur · bsr) out ∧ si.Erased c bsr.sir.data out := by
  obtain ⟨hpos, hfile⟩ := Prod.ext_iff.1 (h.own _ _ (readLink_index_getElem hj))
  obtain ⟨hpos', hfile'⟩ := Prod.ext_iff.1 (h.own _ _ (readLink_index_getElem hj0))
  obtain ⟨P, A, S, l', rfl, hrun⟩ := h.around_next hj0 hj
  rw [← hsir] at h hpos hfile ⊢
  rw [← hprev] at h hrun hpos' hfile' ⊢
  have hsecond : bsr.sir.currentPos ≠ sequentialHeaderSize := by
    have hval : bsr.sir.currentPos = 24 + 88 * (j + 1 : Nat) := hpos
    rw [hval, sequentialHeaderSize]
    omega
  have hs2 : Stream.index = bsr.sir.currentFile.stream := by
    rw [show bsr.sir.currentFile = .indexFile from hfile]
    rfl
  by_cases hnext : bsr.sirPrev.nextFile = .indexFile
  · obtain rfl := (hrun.file_eq_iff h.own).1 hnext
    have hs1 : Stream.index = bsr.sirPrev.currentFile.stream := by
      rw [show bsr.sirPrev.currentFile = .indexFile from hfile']
      rfl
    have hpos0 : 0 ≤ bsr.sirPrev.currentPos := by
      rw [show bsr.sirPrev.currentPos = indexLayout.pos j from hpos']
      exact Layout.pos_nonneg
    have hstream : (si.moveWriteRecord .index bsr.sirPrev.currentPos
        (bsr.sirPrev.setNext bsr.sir.nextPos bsr.sir.nextFile)).2 = .index :=
      congrArg Prod.snd (moveWriteRecord_index hpos0 _)
    refine ⟨_, .of_eq fun fuel => ?_, h.erased_writes hs1 hs2⟩
    simp only [eraseCur, hgood, if_neg hsecond, if_pos hnext, hstream]
    rfl
  · have hA : A ≠ [] := fun hA => hnext ((hrun.file_eq_iff h.own).2 hA)
    have hlast := lastAux_returns hrun h.own hA
    have hs1 : Stream.aux = (A.getLast hA).currentFile.stream := by
      rw [hrun.aux _ (List.getLast_mem hA)]
      rfl
    have hsplit : P ++ bsr.sirPrev :: (A ++ bsr.sir :: S) =
        (P ++ bsr.sirPrev :: A.dropLast) ++ A.getLast hA :: bsr.sir :: S := by
      conv_lhs => rw [← List.dropLast_append_getLast hA, List.append_assoc]
      rw [List.append_assoc]
      rfl
    rw [hsplit] at h ⊢
    refine ⟨_, (hlast.map fun last => ([bsr.sir.rawPos], ((si.moveWriteRecord last.2
      last.1.currentPos (last.1.setNext bsr.sir.nextPos bsr.sir.nextFile)).1.moveWriteRecord .index
        bsr.sir.currentPos (bsr.sir.setNext endOfFile .indexFile)).1)).congr fun fuel => ?_,
      h.erased_writes hs1 hs2⟩
    simp only [eraseCur, hgood, if_neg hsecond, if_neg hnext]
    rfl

/-! ## The overflow chain of the header -/

/-- The place of a key is in the overflow chain that hangs off the header. -/
def InHeaderChain (si : SequentialIndex κ) (k : κ) : Prop :=
  si.header.nextFile ≠ .indexFile ∧ ∀ r ∈ si.indexFile, k < r.data

/-- The key of the record that `erase` reads in the index file instead of the first record of the
header's overflow chain, where a whole record can be read. -/
def SeenAcross (si : SequentialIndex κ) (k : κ) : Prop :=
  ∃ link sir, si.readAcross si.header.nextPos = some (link, some sir) ∧
    KeyType.ofOffset link.nextPos = k

/-- What `erase` can do: a key whose place is in the overflow chain of the header is not stored, and
is not the one that is read in its stead. -/
def Erasable (si : SequentialIndex κ) (c : List (SequentialIndexRecord κ)) (k : κ) : Prop :=
  si.InHeaderChain k → (∀ r ∈ c, r.data ≠ k) ∧ ¬ si.SeenAcross k

/-- A walk from a record of the chain for a key that is not stored. -/
theorem WellFormed.eraseAux_unstored (hne : ∀ x ∈ c1 ++ r :: c2, x.data ≠ k)
    (h : si.WellFormed (c1 ++ r :: c2)) (q : SequentialIndexRecord κ) (s : Stream) :
    LoopReturns (fun _ => si.eraseAuxBody s k) (q, r, .aux) ([], si) := by
  induction c2 generalizing c1 r q with
  | nil =>
    obtain ⟨i, -, hr⟩ := Path.of_append h.chain
    have hend : r.link = endLink := Path.nil_iff.1 (Path.cons_iff.1 hr).2
    exact eraseAux_absent (hne r (by simp)) (.inl (Prod.ext_iff.1 hend).2)
  | cons b c2 ih =>
    by_cases hstop : r.nextFile = .indexFile ∨ r.nextPos = endOfFile ∨ k < r.data
    · exact eraseAux_absent (hne r (by simp)) hstop
    · obtain ⟨i, -, hr⟩ := Path.of_append h.chain
      have hb := (Path.cons_iff.1 (Path.cons_iff.1 hr).2).1
      have hread : si.moveReadRecord .aux r.nextPos r = (b, .aux) :=
        moveReadRecord_aux_of_readLink hb (fun hf => hstop (.inl hf)) r
      have h' : si.WellFormed ((c1 ++ [r]) ++ b :: c2) := by rwa [List.append_assoc]
      have hne' : ∀ x ∈ (c1 ++ [r]) ++ b :: c2, x.data ≠ k := by rwa [List.append_assoc]
      refine .step (.of_eq fun _ => ?_) (ih hne' h' r)
      rw [eraseAuxBody, if_neg (hne r (by simp)), if_neg hstop, hread]

/-- A key that is not stored and not read in the index file is not found there. -/
theorem WellFormed.eraseHeader_unstored (h : si.WellFormed c) (hne : ∀ r ∈ c, r.data ≠ k)
    (hseen : ¬ si.SeenAcross k) (haux : si.auxFile ≠ []) :
    Returns (si.eraseHeader · .index k si.header.nextPos) ([], si) := by
  by_cases hk : (acrossRecord (si.readAcross si.header.nextPos)).data = k
  · refine .of_eq fun fuel => ?_
    have hwrite : si.writeAcross (si.readAcross si.header.nextPos) = si := by
      cases hacross : si.readAcross si.header.nextPos with
      | none => rfl
      | some across =>
        obtain ⟨link, sir⟩ := across
        cases sir with
        | none => rfl
        | some sir =>
          rw [hacross] at hk
          exact absurd ⟨link, sir, hacross, hk⟩ hseen
    simp only [eraseHeader, if_true, if_pos hk, hwrite]
  generalize hrecord : acrossRecord (si.readAcross si.header.nextPos) = seen at hk
  by_cases hstop : seen.nextFile = .indexFile ∨ seen.nextPos = endOfFile ∨ k < seen.data
  · refine .of_eq fun fuel => ?_
    simp only [eraseHeader, if_true, hrecord, if_neg hk, if_pos hstop]
  · -- the read has reached the end of the file, and the walk starts at the first overflow record
    have hpos : seen.nextPos = auxLayout.pos 0 := by
      rw [← hrecord] at hstop ⊢
      cases hacross : si.readAcross si.header.nextPos with
      | none => rfl
      | some across =>
        obtain ⟨link, sir⟩ := across
        cases sir with
        | none => rfl
        | some sir =>
          rw [hacross] at hstop
          obtain ⟨j, -, hj⟩ := Option.bind_eq_some_iff.1 hacross
          obtain ⟨link', -, hj⟩ := Option.map_eq_some_iff.1 hj
          obtain ⟨hi, hsir⟩ := List.getElem?_eq_some_iff.1 (Prod.ext_iff.1 hj).2
          have hfile := (Prod.ext_iff.1 (h.own _ _ (readLink_index_getElem hi))).2
          rw [hsir] at hfile
          exact absurd (.inl hfile) hstop
    obtain ⟨x, aux, hx⟩ := List.exists_cons_of_ne_nil haux
    have hread0 : auxLayout.read si.auxFile seen.nextPos = some x := by
      rw [hpos, Layout.read_pos, hx]
      rfl
    have hread : si.moveReadRecord .aux seen.nextPos seen = (x, .aux) :=
      moveReadRecord_aux_of_readLink (l := (seen.nextPos, .auxFile)) hread0 nofun seen
    have hmem : x ∈ c := h.mem_chain (l := (seen.nextPos, .auxFile)) hread0
    obtain ⟨c1, c2, rfl⟩ := List.append_of_mem hmem
    refine (h.eraseAux_unstored hne seen
      (acrossStream (si.readAcross si.header.nextPos))).returns.congr fun fuel => ?_
    simp only [eraseHeader, if_true, hrecord, if_neg hk, if_neg hstop, hread]

/-- A key whose place is in front of the first record of the index file. -/
theorem WellFormed.eraseAt_header (h : si.WellFormed c) (hok : si.Erasable c k)
    {bsr : BinarySearchResponse κ} {A S : List (SequentialIndexRecord κ)}
    (hgood : bsr.file = .index) (hlocation : bsr.location = .recPrev) (hheader : bsr.header = true)
    (hsih : bsr.sih = si.header) (hgap : si.Gap c k [] si.header.link A l' S) :
    (∀ r ∈ c, r.data ≠ k) ∧ Returns (si.eraseAt · k bsr) ([], si) := by
  have heq : c = A ++ S := hgap.eq
  by_cases hfile : si.header.nextFile = .indexFile
  · obtain rfl := (hgap.run.file_eq_iff h.own).1 hfile
    have hnot : NotInFiles bsr := .inl ⟨hheader, by rw [hsih, hfile]⟩
    refine ⟨fun x hx => ?_, .of_eq fun fuel => ?_⟩
    · rw [heq] at hx
      exact (hgap.gt x hx).ne'
    · rw [eraseAt, hlocation]
      exact if_pos hnot
  · have hbelow : ∀ x ∈ si.indexFile, k < x.data := fun x hx => by
      obtain ⟨hmem, hindex⟩ := h.linked.mem_index_iff.1 hx
      rw [heq] at hmem
      rcases List.mem_append.1 hmem with hA | hS
      · rw [hgap.run.aux x hA] at hindex
        cases hindex
      · exact hgap.gt x hS
    obtain ⟨hne, hseen⟩ := hok ⟨hfile, hbelow⟩
    refine ⟨hne, ?_⟩
    by_cases hnot : NotInFiles bsr
    · refine .of_eq fun fuel => ?_
      rw [eraseAt, hlocation]
      exact if_pos hnot
    · obtain ⟨a, B, rfl⟩ := List.exists_cons_of_ne_nil fun hA =>
        hfile ((hgap.run.file_eq_iff h.own).2 hA)
      obtain ⟨ha, haux, -⟩ := AuxRun.cons_iff.1 hgap.run
      have hmem := mem_aux_of_readLink ha ((Prod.ext_iff.1 (h.own _ _ ha)).2.symm.trans haux)
      refine (h.eraseHeader_unstored hne hseen (List.ne_nil_of_mem hmem)).congr fun fuel => ?_
      rw [eraseAt, hlocation]
      simp only [if_neg hnot, if_pos hheader, hsih, hgood]

/-- Next to a record of the chain, the key is in neither file when the link there leads elsewhere.
-/
theorem notInFiles_iff {bsr : BinarySearchResponse κ} (hheader : bsr.header = false)
    (hlocation : bsr.location = .recPrev ∨ bsr.location = .recNext) :
    NotInFiles bsr ↔
      (gapRecord bsr).nextFile = .indexFile ∨ (gapRecord bsr).nextPos = endOfFile := by
  rcases hlocation with hl | hl <;> simp [NotInFiles, hheader, hl, gapRecord]

/-- A key whose place is behind a record of the index file. -/
theorem WellFormed.eraseAt_record (h : si.WellFormed c) {bsr : BinarySearchResponse κ}
    {P A S : List (SequentialIndexRecord κ)} (hgood : bsr.file = .index)
    (hlocation : bsr.location = .recPrev ∨ bsr.location = .recNext) (hheader : bsr.header = false)
    (hgap : si.Gap c k (P ++ [gapRecord bsr]) (gapRecord bsr).link A l' S) :
    ∃ out, Returns (si.eraseAt · k bsr) out ∧ si.Erased c k out := by
  have heq := hgap.eq
  cases A with
  | nil =>
    have hnot : NotInFiles bsr :=
      (notInFiles_iff hheader hlocation).2 (.inl ((hgap.run.file_eq_iff h.own).2 rfl))
    refine ⟨([], si), .of_eq fun fuel => ?_, .absent fun x hx => ?_⟩
    · rcases hlocation with hl | hl <;> rw [eraseAt, hl] <;> exact if_pos hnot
    · rw [heq] at hx
      rcases List.mem_append.1 hx with hP | hS
      · exact (hgap.lt x hP).ne
      · exact (hgap.gt x hS).ne'
  | cons a B =>
    obtain ⟨ha, haux, hrun⟩ := AuxRun.cons_iff.1 hgap.run
    have hfile : (gapRecord bsr).nextFile ≠ .indexFile := fun hf =>
      List.cons_ne_nil a B ((hgap.run.file_eq_iff h.own).1 hf)
    have hnot : ¬ NotInFiles bsr := fun hn => by
      rcases (notInFiles_iff hheader hlocation).1 hn with hf | he
      · exact hfile hf
      · exact ne_endOfFile_of_readLink ha he
    have hread : si.moveReadRecord .aux (gapRecord bsr).nextPos default = (a, .aux) :=
      moveReadRecord_aux_of_readLink ha hfile default
    have hchain : c = P ++ gapRecord bsr :: a :: (B ++ S) := by
      rw [heq, List.append_assoc]
      rfl
    rw [hchain] at h ⊢
    obtain ⟨out, hloop, hout⟩ := h.eraseAux_run haux hrun hgap.lt hgap.gt
    refine ⟨out, hloop.returns.congr fun fuel => ?_, hout⟩
    rcases hlocation with hl | hl <;>
      simp only [eraseAt, hl, if_neg hnot, hheader, hgood, Bool.false_eq_true, if_false] <;>
      rw [← hread] <;> simp [gapRecord, hl]

/-! ## `erase` -/

/-- `erase` takes the record of a key out of the chain. -/
theorem WellFormed.erase_returns (h : si.WellFormed c) (hok : si.Erasable c k) :
    ∃ out, Returns (si.erase · k) out ∧ si.Erased c k out := by
  by_cases hempty : si.indexFile = []
  · refine ⟨([], si), .of_eq fun fuel => ?_, .absent fun r hr => ?_⟩
    · rw [erase, binarySearch_empty hempty]
      rfl
    · rw [h.linked.empty hempty] at hr
      exact nomatch hr
  obtain ⟨bsr, hbsr, hfound⟩ := binarySearch_found (h.linked.searchable hempty) k
  have hat : ∀ {out}, Returns (si.eraseAt · k bsr) out → Returns (si.erase · k) out :=
    fun hret => hbsr.bind (g := fun fuel => si.eraseAt fuel k) hret
  have hgood := hfound.file_eq
  by_cases hcur : bsr.location = .recCur
  · have hcase : ∃ out, Returns (si.eraseCur · bsr) out ∧ si.Erased c k out := by
      cases hfound with
      | cur i hi location header sir data sirPrev =>
        rw [← data, ← sir]
        cases i with
        | zero => exact h.eraseCur_first hi hgood sir
        | succ j => exact h.eraseCur_next (Nat.lt_of_succ_lt hi) hi hgood sir (sirPrev j rfl)
      | first hi location => cases hcur.symm.trans location
      | prev i hi location => cases hcur.symm.trans location
      | next i hi location => cases hcur.symm.trans location
    obtain ⟨out, hret, hout⟩ := hcase
    refine ⟨out, hat (hret.congr fun fuel => ?_), hout⟩
    rw [eraseAt, hcur]
  · cases h.linked.gapAt hfound hcur with
    | header A S l' location header sih gap next =>
      obtain ⟨hne, hret⟩ := h.eraseAt_header hok hgood location header sih gap
      exact ⟨_, hat hret, .absent hne⟩
    | record P A S l' location header _ gap =>
      obtain ⟨out, hret, hout⟩ := h.eraseAt_record hgood location header gap
      exact ⟨out, hat hret, hout⟩

/-! ## `remove` -/

/-- `remove` reports nothing when nothing is erased. -/
theorem remove_of_absent (hret : Returns (si.erase · k) ([], si')) :
    Returns (si.remove · k) ([], si') := by
  filter_upwards [hret] with fuel h
  rw [remove, h]
  rfl

/-- `remove` reports what is erased, and rebuilds. -/
theorem remove_of_found {si'' : SequentialIndex κ} {p : Int}
    (hret : Returns (si.erase · k) ([p], si')) (hrebuild : Returns si'.rebuild si'') :
    Returns (si.remove · k) ([p], si'') := by
  filter_upwards [hret, hrebuild] with fuel h1 h2
  rw [remove, h1]
  show (si'.rebuild fuel).map ([p], ·) = _
  rw [h2]
  rfl

end SequentialIndex

end Rdbms
