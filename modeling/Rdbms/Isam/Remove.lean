import Rdbms.Isam.Merge
import Rdbms.Lib.SkipRemove

/-!
# What a removal changes

A removal takes records of its key from one page of the chain of the key's bucket. The page is
written back, shares the records of the next one, or, when nothing is left on it, the first page of
the chain is linked to the page behind it. In each case what the chain holds under other keys stays
(`SameBut`), except that the last one also loses the pages in between (`Unlinks`).
-/

namespace Rdbms

/-! ## Records of a page -/

namespace DataPage
variable {κ : Type} [IntCast κ] [LinearOrder κ] {page : DataPage κ} {key : κ} {i : Nat}

/-- `deleted_pos` behind the loop over the records of a page. -/
def deletedPos (page : DataPage κ) (key : κ) : Int :=
  ((lastRemoved (·.key = key) page.live).map (·.pos)).getD (-1)

/-- The loop ends behind the last record. -/
theorem removeRecords_of_le (rounds : Nat) (h : page.count ≤ i) (d : Int) :
    page.removeRecords key rounds i d = .ok (page, d) := by
  cases rounds with
  | zero => rfl
  | succ rounds => rw [removeRecords, if_pos h]

/-- The loop over the records of a page, from the records `l2` on. -/
theorem removeRecords_from (key : κ) : ∀ (rounds i : Nat) (page : DataPage κ) (d : Int)
    (l1 l2 : List (ISAMRecord κ)), page.count ≤ 3 → page.count ≤ i + rounds → l1.length = i →
    page.live = l1 ++ l2 →
    ∃ page', page.removeRecords key rounds i d =
        .ok (page', ((lastRemoved (·.key = key) l2).map (·.pos)).getD d) ∧
      page'.live = l1 ++ skipRemove (·.key = key) l2 ∧ page'.count ≤ page.count ∧
      page'.next = page.next := by
  intro rounds
  induction rounds with
  | zero =>
    intro i page d l1 l2 hle hrounds hlen hlive
    have hcount := length_live hle
    rw [hlive, List.length_append] at hcount
    obtain rfl : l2 = [] := List.length_eq_zero_iff.1 (by omega)
    exact ⟨page, rfl, hlive, le_rfl, rfl⟩
  | succ rounds ih =>
    intro i page d l1 l2 hle hrounds hlen hlive
    have hcount := length_live hle
    rw [hlive, List.length_append] at hcount
    cases l2 with
    | nil =>
      rw [List.length_nil] at hcount
      exact ⟨page, removeRecords_of_le _ (by omega) d, hlive, le_rfl, rfl⟩
    | cons r l =>
      rw [List.length_cons] at hcount
      have hi : i < page.count := by omega
      have hr : page.getRecord i = r := by
        have hget := getElem?_live hi hle
        rw [hlive, ← hlen, List.getElem?_append_right le_rfl, Nat.sub_self] at hget
        exact hlen ▸ (Option.some.inj hget).symm
      rw [removeRecords, if_neg (not_le.2 hi), getKey, hr]
      by_cases hk : r.key = key
      · rw [if_pos hk]
        obtain ⟨page1, hremove, hlive1, hcount1, hnext1⟩ := remove_live hi hle
        have herase : page1.live = l1 ++ l := by
          rw [hlive1, hlive, ← hlen, List.eraseIdx_append_of_length_le le_rfl, Nat.sub_self,
            List.eraseIdx_cons_zero]
        rw [hremove]
        cases l with
        | nil =>
          rw [List.length_nil] at hcount
          refine ⟨page1, ?_, ?_, by omega, hnext1⟩
          · rw [lastRemoved, if_pos (decide_eq_true hk)]
            exact removeRecords_of_le _ (by omega) _
          · rw [skipRemove, if_pos (decide_eq_true hk), herase]
        | cons b l =>
          -- the record behind it is in its place, and the loop goes on behind that
          obtain ⟨page', heq, hlive', hle', hnext'⟩ := ih (i + 1) page1 r.pos (l1 ++ [b]) l
            (by omega) (by omega) (by simp [hlen]) (by simp [herase])
          refine ⟨page', ?_, ?_, by omega, hnext'.trans hnext1⟩
          · rw [lastRemoved, if_pos (decide_eq_true hk)]
            refine heq.trans ?_
            cases lastRemoved (·.key = key) l <;> rfl
          · rw [skipRemove, if_pos (decide_eq_true hk), hlive', List.append_assoc,
              List.singleton_append]
      · rw [if_neg hk]
        have hk' : decide (r.key = key) ≠ true := by simpa using hk
        obtain ⟨page', heq, hlive', hle', hnext'⟩ := ih (i + 1) page d (l1 ++ [r]) l
          hle (by omega) (by simp [hlen]) (by simp [hlive])
        refine ⟨page', ?_, ?_, hle', hnext'⟩
        · rw [lastRemoved_cons_of_neg (p := fun r : ISAMRecord κ => decide (r.key = key)) hk', heq]
        · rw [skipRemove_cons_of_neg (p := fun r : ISAMRecord κ => decide (r.key = key)) hk', hlive',
            List.append_assoc, List.singleton_append]

/-- The loop over the records of a page. -/
theorem removeRecords_live (key : κ) (hle : page.count ≤ 3) :
    ∃ page', page.removeRecords key page.count 0 (-1) = .ok (page', page.deletedPos key) ∧
      page'.live = skipRemove (·.key = key) page.live ∧ page'.count ≤ page.count ∧
      page'.next = page.next :=
  removeRecords_from key page.count 0 page (-1) [] page.live hle (Nat.zero_add _).ge rfl rfl

end DataPage

/-! ## Chains of pages -/

namespace ISAM
variable {κ : Type} {isam isam' isam1 isam2 : ISAM κ} {pos : Int} {page page1 prevPage : DataPage κ}
  {cells cells1 cells2 rest rest' : List (Int × DataPage κ)} {E E0 E1 E2 : List (Entry κ Int)}

/-- The pages of a chain. Only the first can be without records. -/
structure PagesOk (cells : List (Int × DataPage κ)) : Prop where
  le : ∀ c ∈ cells, c.2.count ≤ 3
  tail : ∀ c ∈ cells.tail, PageOk c

/-- Pages that all have records. -/
theorem PagesOk.of_forall (h : ∀ c ∈ cells, PageOk c) : PagesOk cells :=
  ⟨fun c hc => (h c hc).2, fun c hc => h c (List.mem_of_mem_tail hc)⟩

/-- Nothing has changed. -/
theorem Relinked.refl (hc : isam.Chain pos cells)
    (hE : List.Forall₂ (IsEntry isam.dupFile) (live cells) E) :
    Relinked isam pos cells isam cells E :=
  ⟨rfl, rfl, hc, fun _ _ _ h => h, fun c hc => .inl ⟨c, hc, rfl⟩, fun _ _ h => h, hE⟩

/-- One change of a chain after another. -/
theorem Relinked.trans (h1 : Relinked isam pos cells isam1 cells1 E1)
    (h2 : Relinked isam1 pos cells1 isam2 cells2 E2) : Relinked isam pos cells isam2 cells2 E2 where
  root := h2.root.trans h1.root
  idxFile := h2.idxFile.trans h1.idxFile
  chain := h2.chain
  reads q page hq hread := by
    refine h2.reads q page (fun c hc he => ?_) (h1.reads q page hq hread)
    rcases h1.fresh c hc with ⟨d, hd, hcd⟩ | hnone
    · exact hq d hd (he.trans hcd)
    · rw [← he, hread] at hnone
      cases hnone
  fresh c hc := by
    rcases h2.fresh c hc with ⟨d, hd, hcd⟩ | hnone
    · rw [hcd]
      exact h1.fresh d hd
    · cases hread : isam.readPage c.1 with
      | none => exact .inr rfl
      | some page =>
        refine .inl ?_
        by_contra hout
        rw [h1.reads c.1 page (fun d hd he => hout ⟨d, hd, he⟩) hread] at hnone
        cases hnone
  isEntry r e h := h2.isEntry r e (h1.isEntry r e h)
  entries := h2.entries

/-- The first page of a chain is written over and links to some of its pages behind. -/
theorem relinked_write (hc : isam.Chain pos ((pos, page) :: rest))
    (hnext : isam.Chain page1.next rest') (hsub : ∀ c ∈ rest', c ∈ rest)
    (hE1 : List.Forall₂ (IsEntry isam.dupFile) page1.live E1)
    (hE2 : List.Forall₂ (IsEntry isam.dupFile) (live rest') E2) :
    Relinked isam pos ((pos, page) :: rest) (isam.writePage pos page1) ((pos, page1) :: rest')
      (E1 ++ E2) where
  root := rfl
  idxFile := rfl
  chain := Chain.write (Chain.cons_iff.1 hc).2.1 hnext fun d hd => hc.ne_of_mem (hsub d hd)
  reads q page' hq hread := by
    rw [readPage_writePage (Chain.cons_iff.1 hc).2.1, if_neg (hq (pos, page) (.head _)), hread]
  fresh c hc' := by
    rcases List.mem_cons.1 hc' with rfl | hc'
    · exact .inl ⟨(pos, page), .head _, rfl⟩
    · exact .inl ⟨c, .tail _ (hsub c hc'), rfl⟩
  isEntry _ _ h := h
  entries := by
    rw [live_cons]
    exact List.rel_append hE1 hE2

section
variable [IntCast κ] [LinearOrder κ]

omit [LinearOrder κ] in
/-- What becomes of a page that a removal has left records on. -/
theorem writeRemoved_relinked (hc : isam.Chain pos ((pos, page) :: rest))
    (hrest : ∀ c ∈ rest, PageOk c) (h1 : 1 ≤ page1.count) (h3 : page1.count ≤ 3)
    (hnext : page1.next = page.next)
    (hE0 : List.Forall₂ (IsEntry isam.dupFile) page.live E0)
    (hE1 : List.Forall₂ (IsEntry isam.dupFile) page1.live E1)
    (hE2 : List.Forall₂ (IsEntry isam.dupFile) (live rest) E2) (prevPos : Int) (iter : Nat)
    (prevPage : DataPage κ) (deletedPos : Int) :
    ∃ isam' cells', isam.writeRemoved prevPos pos iter prevPage page1 deletedPos =
        some (.ok [deletedPos], isam') ∧
      Relinked isam pos ((pos, page) :: rest) isam' cells' (E1 ++ E2) ∧ ∀ c ∈ cells', PageOk c := by
  obtain ⟨-, -, hlink⟩ := Chain.cons_iff.1 hc
  have hempty : ¬ page1.isEmpty = true := by
    rw [DataPage.isEmpty, decide_eq_true_eq]
    omega
  have hcons {page2 : DataPage κ} (h1 : 1 ≤ page2.count) (h3 : page2.count ≤ 3)
      {rest' : List (Int × DataPage κ)} (hsub : ∀ c ∈ rest', PageOk c) :
      ∀ c ∈ (pos, page2) :: rest', PageOk c := by
    intro c hc
    rcases List.mem_cons.1 hc with rfl | hc
    · exact ⟨h1, h3⟩
    · exact hsub c hc
  rw [writeRemoved, if_neg hempty]
  by_cases hhalf : page1.count ≤ DataPage.getCapacity / 2
  · have hone : page1.count = 1 := le_antisymm hhalf h1
    rw [if_pos hhalf]
    by_cases hlast : page.next = -1
    · obtain rfl := hlink.eq_nil_iff.2 hlast
      rw [merge, if_pos (hnext.trans hlast)]
      exact ⟨_, _, rfl, relinked_write hc (hnext ▸ hlink) (fun c h => h) hE1 hE2, hcons h1 h3 hrest⟩
    · obtain ⟨⟨dpos, nextPage⟩, rest, rfl⟩ :=
        List.exists_cons_of_ne_nil (mt hlink.eq_nil_iff.1 hlast)
      obtain ⟨rfl, hdread, hdlink⟩ := Chain.cons_iff.1 hlink
      have hd3 : nextPage.count ≤ 3 := (hrest _ (.head _)).2
      have hrest' : ∀ c ∈ rest, PageOk c := fun c hc => hrest c (.tail _ hc)
      rw [live_cons] at hE2
      obtain ⟨F1, F2, rfl, hF1, hF2⟩ := Multimap.forall₂_append_left hE2
      rw [← hnext] at hdread
      obtain ⟨isam', page2, hmerge, h⟩ := merge_cases hone.le hd3 hdread
      rw [hmerge]
      cases h with
      | absorbed hlive hcount hle hlink2 =>
        refine ⟨_, (pos, page2) :: rest, rfl, ?_, hcons (by omega) hle hrest'⟩
        rw [← List.append_assoc]
        refine relinked_write hc (hlink2 ▸ hdlink) (fun c h => .tail _ h) ?_ hF2
        exact hlive ▸ List.rel_append hE1 hF1
      | @borrowed _ nextPage1 r hnextLive hlive hcount hcount1 hlink2 hnext1 =>
        rw [hnextLive] at hF1
        cases hF1 with
        | @cons _ e _ F he hF =>
          have hshort : Relinked isam page.next ((page.next, nextPage) :: rest)
              (isam.writePage page.next nextPage1) ((page.next, nextPage1) :: rest) (F ++ F2) :=
            relinked_write hlink (hnext1 ▸ hdlink) (fun c h => h) hF hF2
          have hboth := hshort.cons hc hE0
          have hE1' : List.Forall₂ (IsEntry isam.dupFile) page2.live (E1 ++ [e]) := by
            rw [hlive]
            exact List.rel_append hE1 (.cons he .nil)
          have hchain2 : Chain (isam.writePage page.next nextPage1) page2.next
              ((page.next, nextPage1) :: rest) := by
            rw [hlink2, hnext]
            exact hshort.chain
          have hpage2 := relinked_write hboth.chain hchain2 (fun c h => h) hE1' hshort.entries
          have hentries : E1 ++ [e] ++ (F ++ F2) = E1 ++ (e :: F ++ F2) := by simp
          rw [hnext]
          refine ⟨_, _, rfl, hentries ▸ hboth.trans hpage2, hcons (by omega) (by omega) ?_⟩
          intro c hc
          rcases List.mem_cons.1 hc with rfl | hc
          · exact ⟨hcount1.ge.trans' (by decide), hcount1.trans_le (by decide)⟩
          · exact hrest' c hc
  · rw [if_neg hhalf]
    exact ⟨_, _, rfl, relinked_write hc (hnext ▸ hlink) (fun c h => h) hE1 hE2, hcons h1 h3 hrest⟩

omit [IntCast κ] [LinearOrder κ] in
/-- A record and its entry have one key. -/
theorem IsEntry.key_eq {dupFile : List (ISAMRecord κ)} [DecidableEq κ] (key : κ) (r : ISAMRecord κ)
    (e : Entry κ Int) (h : IsEntry dupFile r e) : decide (r.key = key) = decide (e.key = key) := by
  rw [h.1]

/-- One round of the loop at the page where it ends. A page that keeps records is written; one that
is emptied is written without records when it is the first of the chain, and unlinked behind that. -/
theorem removeBody_at {key : κ} {prevPos : Int} (hc : isam.Chain pos ((pos, page) :: rest))
    (hpage : PageOk (pos, page)) (hrest : ∀ c ∈ rest, PageOk c)
    (hE1 : List.Forall₂ (IsEntry isam.dupFile) page.live E1)
    (hE2 : List.Forall₂ (IsEntry isam.dupFile) (live rest) E2)
    (hlast : key ≤ page.last.key) (hprev : isam.readPage prevPos = some prevPage) (iter : Nat) :
    ∃ res isam', isam.removeBody key prevPos (pos, iter) = some (.inr (.ok res, isam')) ∧
      (page.deletedPos key = -1 ∧ res = [] ∧ isam' = isam ∨
        page.deletedPos key ≠ -1 ∧ res = [page.deletedPos key] ∧
          (skipRemove (·.key = key) page.live ≠ [] ∧
            (∃ cells', Relinked isam pos ((pos, page) :: rest) isam' cells'
              (skipRemove (·.key = key) E1 ++ E2) ∧ ∀ c ∈ cells', PageOk c) ∨
          skipRemove (·.key = key) page.live = [] ∧
            (iter = 0 ∧ (∃ page1 : DataPage κ, page1.count = 0 ∧ page1.next = page.next ∧
                isam' = isam.writePage pos page1) ∨
              iter ≠ 0 ∧ isam' = isam.writePage prevPos (prevPage.setNext page.next)))) := by
  have hread := (Chain.cons_iff.1 hc).2.1
  have hempty : ¬ page.isEmpty = true := by
    rw [DataPage.isEmpty, decide_eq_true_eq]
    exact Nat.one_le_iff_ne_zero.1 hpage.1
  obtain ⟨page1, hremove, hlive, hle, hnext⟩ := DataPage.removeRecords_live key hpage.2
  have hle3 : page1.count ≤ 3 := hle.trans hpage.2
  have hbody : isam.removeBody key prevPos (pos, iter) =
      if page.deletedPos key = -1 then some (.inr (.ok [], isam))
      else (isam.writeRemoved prevPos pos iter prevPage page1 (page.deletedPos key)).map .inr := by
    rw [removeBody]
    simp only [hread, hprev, Option.bind_eq_bind, Option.bind_some, if_neg hempty, if_pos hlast,
      hremove]
  rw [hbody]
  by_cases hdeleted : page.deletedPos key = -1
  · rw [if_pos hdeleted]
    exact ⟨[], isam, rfl, .inl ⟨hdeleted, rfl, rfl⟩⟩
  · rw [if_neg hdeleted]
    have hzero : page1.count = 0 ↔ skipRemove (·.key = key) page.live = [] := by
      rw [← hlive, ← List.length_eq_zero_iff, DataPage.length_live hle3]
    by_cases h0 : page1.count = 0
    · have hempty1 : page1.isEmpty = true := decide_eq_true h0
      rw [writeRemoved, if_pos hempty1]
      by_cases hiter : iter = 0
      · rw [if_pos hiter]
        exact ⟨_, _, rfl, .inr ⟨hdeleted, rfl, .inr ⟨hzero.1 h0,
          .inl ⟨hiter, page1, h0, hnext, rfl⟩⟩⟩⟩
      · rw [if_neg hiter, hnext]
        exact ⟨_, _, rfl, .inr ⟨hdeleted, rfl, .inr ⟨hzero.1 h0, .inr ⟨hiter, rfl⟩⟩⟩⟩
    · have hE1' : List.Forall₂ (IsEntry isam.dupFile) page1.live (skipRemove (·.key = key) E1) :=
        hlive ▸ skipRemove_forall₂ (IsEntry.key_eq key) hE1
      obtain ⟨isam', cells', hwrite, hrelinked, hok⟩ := writeRemoved_relinked hc hrest
        (Nat.one_le_iff_ne_zero.2 h0) hle3 hnext hE1 hE1' hE2 prevPos iter prevPage
        (page.deletedPos key)
      rw [hwrite]
      exact ⟨_, isam', rfl, .inr ⟨hdeleted, rfl, .inl ⟨mt hzero.2 h0, cells', hrelinked, hok⟩⟩⟩

/-- A page that is passed. -/
theorem removeBody_pass {key : κ} {prevPos : Int} (hread : isam.readPage pos = some page)
    (hpage : PageOk (pos, page)) (hlast : page.last.key < key) (hnext : page.next ≠ -1)
    (hprev : isam.readPage prevPos = some prevPage) (iter : Nat) :
    isam.removeBody key prevPos (pos, iter) = some (.inl (page.next, iter + 1)) := by
  have hempty : ¬ page.isEmpty = true := by
    rw [DataPage.isEmpty, decide_eq_true_eq]
    exact Nat.one_le_iff_ne_zero.1 hpage.1
  rw [removeBody]
  simp only [hread, hprev, Option.bind_eq_bind, Option.bind_some, if_neg hempty,
    if_neg hlast.not_ge, if_pos hnext]

/-- The loop ends at the last page of a chain when all its keys are below the key. -/
theorem removeBody_end {key : κ} {prevPos : Int} (hread : isam.readPage pos = some page)
    (hpage : PageOk (pos, page)) (hlast : page.last.key < key) (hnext : page.next = -1)
    (hprev : isam.readPage prevPos = some prevPage) (iter : Nat) :
    isam.removeBody key prevPos (pos, iter) = some (.inr (.ok [], isam)) := by
  have hempty : ¬ page.isEmpty = true := by
    rw [DataPage.isEmpty, decide_eq_true_eq]
    exact Nat.one_le_iff_ne_zero.1 hpage.1
  rw [removeBody]
  simp only [hread, hprev, Option.bind_eq_bind, Option.bind_some, if_neg hempty,
    if_neg hlast.not_ge, if_neg (not_not.2 hnext)]

/-- `_remove` of the key passes the pages `passed` of a chain and ends at the page `c`. -/
structure StopsAt (key : κ) (cells passed : List (Int × DataPage κ)) (c : Int × DataPage κ)
    (rest : List (Int × DataPage κ)) : Prop where
  cells_eq : cells = passed ++ c :: rest
  passes : ∀ d ∈ passed, 1 ≤ d.2.count ∧ d.2.last.key < key
  count : 1 ≤ c.2.count
  last : key ≤ c.2.last.key

/-- `_remove` ends at one page at most. -/
theorem StopsAt.unique {key : κ} {c c' : Int × DataPage κ}
    {passed passed' : List (Int × DataPage κ)} (h : StopsAt key cells passed c rest)
    (h' : StopsAt key cells passed' c' rest') : passed = passed' ∧ c = c' ∧ rest = rest' := by
  obtain ⟨rfl, hpassed, -, hlast⟩ := h
  obtain ⟨heq, hpassed', -, hlast'⟩ := h'
  induction passed generalizing passed' with
  | nil =>
    cases passed' with
    | nil =>
      cases heq
      exact ⟨rfl, rfl, rfl⟩
    | cons d passed' =>
      cases heq
      exact absurd hlast (hpassed' c (.head _)).2.not_ge
  | cons d passed ih =>
    cases passed' with
    | nil =>
      cases heq
      exact absurd hlast' (hpassed c' (.head _)).2.not_ge
    | cons d' passed' =>
      rw [List.cons_append, List.cons_append, List.cons.injEq] at heq
      obtain ⟨rfl, heq⟩ := heq
      obtain ⟨rfl, hrest⟩ := ih (fun e he => hpassed e (.tail _ he)) heq
        fun e he => hpassed' e (.tail _ he)
      exact ⟨rfl, hrest⟩

/-- The same, with the entries `E` of the chain, and a record is removed: the entries of the pages in
front, of the page `c`, and of the pages behind. -/
structure Taken (dupFile : List (ISAMRecord κ)) (key : κ) (cells : List (Int × DataPage κ))
    (E : List (Entry κ Int)) (passed : List (Int × DataPage κ)) (c : Int × DataPage κ)
    (rest : List (Int × DataPage κ)) (F1 E1 F2 : List (Entry κ Int)) : Prop
    extends StopsAt key cells passed c rest where
  deletedPos : c.2.deletedPos key ≠ -1
  entries : E = F1 ++ (E1 ++ F2)
  before : List.Forall₂ (IsEntry dupFile) (live passed) F1
  page : List.Forall₂ (IsEntry dupFile) c.2.live E1
  behind : List.Forall₂ (IsEntry dupFile) (live rest) F2

/-- A page in front that is passed. -/
theorem Taken.cons {dupFile : List (ISAMRecord κ)} {key : κ} {c d : Int × DataPage κ}
    {passed : List (Int × DataPage κ)} {F1 F2 : List (Entry κ Int)}
    (h : Taken dupFile key cells E passed c rest F1 E1 F2) (hcount : 1 ≤ d.2.count)
    (hlast : d.2.last.key < key) (hE0 : List.Forall₂ (IsEntry dupFile) d.2.live E0) :
    Taken dupFile key (d :: cells) (E0 ++ E) (d :: passed) c rest (E0 ++ F1) E1 F2 where
  cells_eq := by rw [h.cells_eq, List.cons_append]
  passes := List.forall_mem_cons.2 ⟨⟨hcount, hlast⟩, h.passes⟩
  count := h.count
  last := h.last
  deletedPos := h.deletedPos
  entries := by rw [h.entries, List.append_assoc]
  before := by
    rw [live_cons]
    exact List.rel_append hE0 h.before
  page := h.page
  behind := h.behind

/-- Behind a page that is passed. -/
theorem StopsAt.of_cons {key : κ} {c d : Int × DataPage κ} {passed : List (Int × DataPage κ)}
    (h : StopsAt key (d :: cells) passed c rest) (hlast : d.2.last.key < key) :
    ∃ passed', StopsAt key cells passed' c rest := by
  obtain ⟨heq, hpassed, hcount, hkey⟩ := h
  cases passed with
  | nil =>
    cases heq
    exact absurd hkey hlast.not_ge
  | cons d' passed =>
    cases heq
    exact ⟨passed, rfl, fun e he => hpassed e (.tail _ he), hcount, hkey⟩

/-- A chain whose only page is passed has no page to end at. -/
theorem StopsAt.not_singleton {key : κ} {c d : Int × DataPage κ} {passed : List (Int × DataPage κ)}
    (hlast : d.2.last.key < key) : ¬ StopsAt key [d] passed c rest := fun h => by
  obtain ⟨passed', h⟩ := h.of_cons hlast
  exact absurd h.cells_eq (by simp)

/-- Behind the first page of a chain: nothing changes, or only these pages change, or the first page
is linked to the pages behind the one that the key was the only record of. -/
theorem remove_tail (key : κ) {prevPos : Int} (hprev : isam.readPage prevPos = some prevPage) :
    ∀ {cells : List (Int × DataPage κ)} {pos : Int} {iter : Nat} {E : List (Entry κ Int)},
    iter ≠ 0 → isam.Chain pos cells → cells ≠ [] → (∀ c ∈ cells, PageOk c) →
    List.Forall₂ (IsEntry isam.dupFile) (live cells) E →
    ∃ res isam', LoopReturns (fun _ => isam.removeBody key prevPos) (pos, iter) (.ok res, isam') ∧
      ((∀ passed c rest, StopsAt key cells passed c rest → c.2.deletedPos key = -1) ∧ res = [] ∧
          isam' = isam ∨
        ∃ passed c rest F1 E1 F2, Taken isam.dupFile key cells E passed c rest F1 E1 F2 ∧
          res = [c.2.deletedPos key] ∧
          (skipRemove (·.key = key) c.2.live ≠ [] ∧
            (∃ cells', Relinked isam pos cells isam' cells'
              (F1 ++ (skipRemove (·.key = key) E1 ++ F2)) ∧ ∀ c ∈ cells', PageOk c) ∨
          skipRemove (·.key = key) c.2.live = [] ∧ isam.Chain c.2.next rest ∧
            isam' = isam.writePage prevPos (prevPage.setNext c.2.next)))
  | [], _, _, _, _, _, hne, _, _ => absurd rfl hne
  | (pos', page) :: cells, pos, iter, E, hiter, h, _, hok, hE => by
    obtain ⟨rfl, hread, hlink⟩ := Chain.cons_iff.1 h
    have hpage : PageOk (pos', page) := hok _ (.head _)
    have hrest : ∀ c ∈ cells, PageOk c := fun c hc => hok c (.tail _ hc)
    rw [live_cons] at hE
    obtain ⟨E1, E2, rfl, hE1, hE2⟩ := Multimap.forall₂_append_left hE
    by_cases hlast : key ≤ page.last.key
    · have hstops : StopsAt key ((pos', page) :: cells) [] (pos', page) cells :=
        ⟨rfl, nofun, hpage.1, hlast⟩
      obtain ⟨res, isam', hbody, hres⟩ := removeBody_at h hpage hrest hE1 hE2 hlast hprev iter
      refine ⟨res, isam', .done (.of_eq fun _ => hbody), ?_⟩
      rcases hres with ⟨hpos, hres⟩ | ⟨hpos, hres, hkept⟩
      · refine .inl ⟨fun passed c rest hstops' => ?_, hres⟩
        obtain ⟨-, rfl, -⟩ := hstops.unique hstops'
        exact hpos
      · refine .inr ⟨[], (pos', page), cells, [], E1, E2, ⟨hstops, hpos, rfl, .nil, hE1, hE2⟩, hres, ?_⟩
        rcases hkept with hkept | ⟨hnil, ⟨h0, -⟩ | ⟨-, hisam'⟩⟩
        · exact .inl hkept
        · exact absurd h0 hiter
        · exact .inr ⟨hnil, hlink, hisam'⟩
    · rw [not_le] at hlast
      by_cases hnext : page.next = -1
      · have hbody := removeBody_end hread hpage hlast hnext hprev iter
        obtain rfl := hlink.eq_nil_iff.2 hnext
        exact ⟨[], isam, .done (.of_eq fun _ => hbody),
          .inl ⟨fun passed c rest hstops => absurd hstops (StopsAt.not_singleton hlast), rfl, rfl⟩⟩
      · have hbody := removeBody_pass hread hpage hlast hnext hprev iter
        obtain ⟨res, isam', hloop, hres⟩ := remove_tail key hprev (Nat.succ_ne_zero iter) hlink
          (mt hlink.eq_nil_iff.1 hnext) hrest hE2
        refine ⟨res, isam', .step (.of_eq fun _ => hbody) hloop, ?_⟩
        rcases hres with ⟨hnone, hres⟩ | ⟨passed, c, rest, F1, G1, F2, htaken, hres, hkept⟩
        · refine .inl ⟨fun passed c rest hstops => ?_, hres⟩
          obtain ⟨passed', hstops⟩ := hstops.of_cons hlast
          exact hnone passed' c rest hstops
        · refine .inr ⟨_, c, rest, _, G1, F2, htaken.cons hpage.1 hlast hE1, hres, ?_⟩
          rcases hkept with ⟨hne, cells', hrelinked, hok'⟩ | hemptied
          · refine .inl ⟨hne, _, ?_, List.forall_mem_cons.2 ⟨hpage, hok'⟩⟩
            rw [List.append_assoc]
            exact hrelinked.cons h hE1
          · exact .inr hemptied

/-- How the removal of a key from a chain with the entries `E` ends: what is reported, and the entries
of the chain behind it. -/
inductive Removal (isam : ISAM κ) (key : κ) (cells : List (Int × DataPage κ)) (E : List (Entry κ Int)) :
    List Int → ISAM κ → List (Entry κ Int) → Prop
  | nothing :
      (∀ passed c rest, StopsAt key cells passed c rest → c.2.deletedPos key = -1) →
      Removal isam key cells E [] isam E
  | kept {passed rest : List (Int × DataPage κ)} {c : Int × DataPage κ}
      {F1 E1 F2 : List (Entry κ Int)} (isam' : ISAM κ) :
      Taken isam.dupFile key cells E passed c rest F1 E1 F2 →
      skipRemove (·.key = key) c.2.live ≠ [] →
      Removal isam key cells E [c.2.deletedPos key] isam'
        (F1 ++ (skipRemove (·.key = key) E1 ++ F2))
  | emptied {passed rest : List (Int × DataPage κ)} {c : Int × DataPage κ}
      {F0 F1 E1 F2 : List (Entry κ Int)} (isam' : ISAM κ) :
      Taken isam.dupFile key cells E passed c rest (F0 ++ F1) E1 F2 →
      List.Forall₂ (IsEntry isam.dupFile) (live (passed.take 1)) F0 →
      skipRemove (·.key = key) c.2.live = [] →
      Removal isam key cells E [c.2.deletedPos key] isam' (F0 ++ F2)

omit [IntCast κ] in
/-- A page that is emptied had one record, of the key. -/
theorem Removal.emptied_live {key : κ} {page : DataPage κ} (hpos : page.deletedPos key ≠ -1)
    (hnil : skipRemove (·.key = key) page.live = []) :
    ∃ r, page.live = [r] ∧ r.key = key ∧ r.pos ≠ -1 := by
  rcases skipRemove_eq_nil_iff.1 hnil with hlive | ⟨r, hlive, hk⟩
  · rw [DataPage.deletedPos, hlive] at hpos
    exact absurd rfl hpos
  · refine ⟨r, hlive, of_decide_eq_true hk, ?_⟩
    rwa [DataPage.deletedPos, hlive, lastRemoved, if_pos hk] at hpos

/-- The removal of a key from a chain would take the only record of its first page. -/
def Empties (key : κ) (cells : List (Int × DataPage κ)) : Prop :=
  ∃ c rest r, cells = c :: rest ∧ c.2.live = [r] ∧ r.key = key ∧ r.pos ≠ -1

/-- How `_remove` of a key from a chain ends, with the chain and its entries after it. Pages that all
have records keep some, unless the first page loses its only one. -/
def RemovesFrom (isam : ISAM κ) (key : κ) (pos : Int) (cells : List (Int × DataPage κ))
    (E : List (Entry κ Int)) : Prop :=
  ∃ res isam' cells' E',
    LoopReturns (fun _ => isam.removeBody key pos) (pos, 0) (.ok res, isam') ∧
    Relinked isam pos cells isam' cells' E' ∧ PagesOk cells' ∧
    Removal isam key cells E res isam' E' ∧
    ((∀ c ∈ cells, PageOk c) → ¬ Empties key cells → ∀ c ∈ cells', PageOk c)

/-- A first page without records ends the removal. -/
theorem removesFrom_empty (key : κ) (h : isam.Chain pos ((pos, page) :: rest)) (h0 : page.count = 0)
    (hok : PagesOk ((pos, page) :: rest))
    (hE : List.Forall₂ (IsEntry isam.dupFile) (live ((pos, page) :: rest)) E) :
    isam.RemovesFrom key pos ((pos, page) :: rest) E := by
  obtain ⟨-, hread, -⟩ := Chain.cons_iff.1 h
  have hbody : isam.removeBody key pos (pos, 0) = some (.inr (.ok [], isam)) := by
    have hempty : page.isEmpty = true := decide_eq_true h0
    rw [removeBody]
    simp only [hread, Option.bind_eq_bind, Option.bind_some, if_pos hempty]
  refine ⟨[], isam, _, E, .done (.of_eq fun _ => hbody), .refl h hE, hok,
    .nothing fun passed c rest' hstops => ?_, fun hall _ => hall⟩
  obtain ⟨heq, hpassed, hcount, -⟩ := hstops
  cases passed with
  | nil =>
    cases heq
    exact absurd h0 (Nat.one_le_iff_ne_zero.1 hcount)
  | cons d passed =>
    cases heq
    exact absurd h0 (Nat.one_le_iff_ne_zero.1 (hpassed _ (.head _)).1)

/-- The removal ends at the first page. -/
theorem removesFrom_first {key : κ} (h : isam.Chain pos ((pos, page) :: rest))
    (hpage : PageOk (pos, page)) (hrest : ∀ c ∈ rest, PageOk c) (hlast : key ≤ page.last.key)
    (hE1 : List.Forall₂ (IsEntry isam.dupFile) page.live E1)
    (hE2 : List.Forall₂ (IsEntry isam.dupFile) (live rest) E2) :
    isam.RemovesFrom key pos ((pos, page) :: rest) (E1 ++ E2) := by
  obtain ⟨-, hread, hlink⟩ := Chain.cons_iff.1 h
  have hok : PagesOk ((pos, page) :: rest) := .of_forall (List.forall_mem_cons.2 ⟨hpage, hrest⟩)
  have hE : List.Forall₂ (IsEntry isam.dupFile) (live ((pos, page) :: rest)) (E1 ++ E2) := by
    rw [live_cons]
    exact List.rel_append hE1 hE2
  have hstops : StopsAt key ((pos, page) :: rest) [] (pos, page) rest :=
    ⟨rfl, nofun, hpage.1, hlast⟩
  obtain ⟨res, isam', hbody, hres⟩ := removeBody_at h hpage hrest hE1 hE2 hlast hread 0
  rcases hres with ⟨hpos, rfl, rfl⟩ | ⟨hpos, rfl, hkept⟩
  · refine ⟨_, _, _, _, .done (.of_eq fun _ => hbody), .refl h hE, hok,
      .nothing fun passed c rest' hstops' => ?_, fun hall _ => hall⟩
    obtain ⟨-, rfl, -⟩ := hstops.unique hstops'
    exact hpos
  · have htaken : Taken isam.dupFile key ((pos, page) :: rest) (E1 ++ E2) [] (pos, page) rest
        [] E1 E2 := ⟨hstops, hpos, rfl, .nil, hE1, hE2⟩
    rcases hkept with ⟨hne, cells', hrelinked, hok'⟩ | ⟨hnil, ⟨-, page1, hcount, hnext, rfl⟩ | ⟨h0, -⟩⟩
    · exact ⟨_, isam', cells', _, .done (.of_eq fun _ => hbody), hrelinked, .of_forall hok',
        .kept isam' htaken hne, fun _ _ => hok'⟩
    · -- the page keeps its place in the chain, with no records
      have hE1' : List.Forall₂ (IsEntry isam.dupFile) page1.live [] := by
        rw [DataPage.live, hcount, List.take_zero]
        exact .nil
      refine ⟨_, _, (pos, page1) :: rest, E2, .done (.of_eq fun _ => hbody),
        relinked_write h (hnext ▸ hlink) (fun c h => h) hE1' hE2, ⟨?_, hrest⟩, ?_, ?_⟩
      · exact List.forall_mem_cons.2 ⟨hcount ▸ Nat.zero_le 3, fun c hc => (hrest c hc).2⟩
      · have hlive : List.Forall₂ (IsEntry isam.dupFile)
            (live (([] : List (Int × DataPage κ)).take 1)) [] := .nil
        exact .emptied _ htaken hlive hnil
      · intro _ hkeep
        obtain ⟨r, hlive, hr⟩ := Removal.emptied_live hpos hnil
        exact absurd ⟨_, _, r, rfl, hlive, hr⟩ hkeep
    · exact absurd rfl h0

/-- The first page is passed: what happens, happens behind it. -/
theorem removesFrom_rest {key : κ} (h : isam.Chain pos ((pos, page) :: rest))
    (hpage : PageOk (pos, page)) (hrest : ∀ c ∈ rest, PageOk c) (hlast : page.last.key < key)
    (hE1 : List.Forall₂ (IsEntry isam.dupFile) page.live E1)
    (hE2 : List.Forall₂ (IsEntry isam.dupFile) (live rest) E2) :
    isam.RemovesFrom key pos ((pos, page) :: rest) (E1 ++ E2) := by
  obtain ⟨-, hread, hlink⟩ := Chain.cons_iff.1 h
  have hok : PagesOk ((pos, page) :: rest) := .of_forall (List.forall_mem_cons.2 ⟨hpage, hrest⟩)
  have hE : List.Forall₂ (IsEntry isam.dupFile) (live ((pos, page) :: rest)) (E1 ++ E2) := by
    rw [live_cons]
    exact List.rel_append hE1 hE2
  by_cases hnext : page.next = -1
  · have hbody := removeBody_end hread hpage hlast hnext hread 0
    obtain rfl := hlink.eq_nil_iff.2 hnext
    exact ⟨[], isam, _, _, .done (.of_eq fun _ => hbody), .refl h hE, hok,
      .nothing fun passed c rest' hstops => absurd hstops (StopsAt.not_singleton hlast),
      fun hall _ => hall⟩
  · have hbody := removeBody_pass hread hpage hlast hnext hread 0
    obtain ⟨res, isam', hloop, hres⟩ := remove_tail key hread (Nat.succ_ne_zero 0) hlink
      (mt hlink.eq_nil_iff.1 hnext) hrest hE2
    have hloop' := LoopReturns.step (.of_eq fun _ => hbody) hloop
    rcases hres with ⟨hnone, rfl, rfl⟩ | ⟨passed, c, behind, F1, G1, F2, htaken, rfl, hkept⟩
    · refine ⟨_, _, _, _, hloop', .refl h hE, hok, .nothing fun passed c rest' hstops => ?_,
        fun hall _ => hall⟩
      obtain ⟨passed', hstops⟩ := hstops.of_cons hlast
      exact hnone passed' c rest' hstops
    · have htaken' := htaken.cons hpage.1 hlast hE1
      rcases hkept with ⟨hne, cells', hrelinked, hok'⟩ | ⟨hnil, hchain, rfl⟩
      · have hall' := List.forall_mem_cons.2 ⟨hpage, hok'⟩
        refine ⟨_, isam', _, _, hloop', hrelinked.cons h hE1, .of_forall hall', ?_,
          fun _ _ => hall'⟩
        rw [← List.append_assoc]
        exact .kept isam' htaken' hne
      · -- the first page is linked to the pages behind the one that is emptied
        have hsub : ∀ d ∈ behind, d ∈ rest := fun d hd => by
          rw [htaken.cells_eq]
          exact List.mem_append_right _ (.tail _ hd)
        have hall' : ∀ d ∈ (pos, page.setNext c.2.next) :: behind, PageOk d :=
          List.forall_mem_cons.2 ⟨hpage, fun d hd => hrest d (hsub d hd)⟩
        refine ⟨_, _, (pos, page.setNext c.2.next) :: behind, E1 ++ F2, hloop',
          relinked_write h hchain hsub hE1 htaken.behind, .of_forall hall',
          .emptied _ htaken' ?_ hnil, fun _ _ => hall'⟩
        rw [List.take_succ_cons, List.take_zero, live_cons]
        exact (List.append_nil page.live).symm ▸ hE1

/-- Along a whole chain. -/
theorem remove_chain (key : κ) (h : isam.Chain pos cells) (hne : cells ≠ []) (hok : PagesOk cells)
    (hE : List.Forall₂ (IsEntry isam.dupFile) (live cells) E) : isam.RemovesFrom key pos cells E := by
  obtain ⟨⟨pos', page⟩, rest, rfl⟩ := List.exists_cons_of_ne_nil hne
  obtain ⟨rfl, -, -⟩ := Chain.cons_iff.1 h
  by_cases h0 : page.count = 0
  · exact removesFrom_empty key h h0 hok hE
  · have hpage : PageOk (pos', page) := ⟨Nat.one_le_iff_ne_zero.2 h0, hok.le _ (.head _)⟩
    rw [live_cons] at hE
    obtain ⟨E1, E2, rfl, hE1, hE2⟩ := Multimap.forall₂_append_left hE
    rcases le_or_gt key page.last.key with hlast | hlast
    · exact removesFrom_first h hpage hok.tail hlast hE1 hE2
    · exact removesFrom_rest h hpage hok.tail hlast hE1 hE2

/-- The removal of a key from a chain would unlink a page behind the second one. -/
def Unlinks (key : κ) (cells : List (Int × DataPage κ)) : Prop :=
  ∃ c0 c1 passed c rest r, cells = c0 :: c1 :: (passed ++ c :: rest) ∧
    (∀ d ∈ c0 :: c1 :: passed, 1 ≤ d.2.count ∧ d.2.last.key < key) ∧ c.2.live = [r] ∧ r.key = key ∧
    r.pos ≠ -1

namespace Removal
variable {key : κ} {res : List Int} {E' : List (Entry κ Int)}

/-- Entries only go. -/
theorem sublist (h : Removal isam key cells E res isam' E') : E'.Sublist E := by
  cases h with
  | nothing => exact .refl _
  | kept _ htaken =>
    rw [htaken.entries]
    exact (List.Sublist.refl _).append ((skipRemove_sublist _ _).append (.refl _))
  | emptied _ htaken =>
    rw [htaken.entries, List.append_assoc]
    refine (List.Sublist.refl _).append ?_
    exact (List.sublist_append_right _ _).trans (List.sublist_append_right _ _)

/-- When no page is unlinked behind the second one, the entries of the other keys stay. -/
theorem sameBut (h : Removal isam key cells E res isam' E') (hkeep : ¬ Unlinks key cells) :
    SameBut key E E' := by
  have hskip (E1 : List (Entry κ Int)) : SameBut key E1 (skipRemove (·.key = key) E1) :=
    fun p hp => filter_skipRemove (fun e he => by simpa using hp e he) E1
  cases h with
  | nothing => exact .refl key _
  | @kept _ _ _ F1 E1 F2 _ htaken _ =>
    rw [htaken.entries]
    exact (SameBut.refl key F1).append ((hskip E1).append (.refl key F2))
  | @emptied passed rest c F0 F1 E1 F2 _ htaken hF0 hnil =>
    obtain ⟨r, hlive, hkey, hpos⟩ := emptied_live htaken.deletedPos hnil
    have hE1 : skipRemove (·.key = key) E1 = [] := by
      have hskip := skipRemove_forall₂ (IsEntry.key_eq key) htaken.page
      rw [hnil] at hskip
      exact List.forall₂_nil_left_iff.1 hskip
    have hF1 : F1 = [] := by
      have hbefore := htaken.before
      match hpassed : passed with
      | [] =>
        have hnone := List.forall₂_nil_left_iff.1 hbefore
        exact (List.append_eq_nil_iff.1 hnone).2
      | [d] =>
        have hlen := hbefore.length_eq.symm.trans hF0.length_eq
        rw [List.length_append] at hlen
        exact List.length_eq_zero_iff.1 (by omega)
      | c0 :: c1 :: passed =>
        exact absurd ⟨c0, c1, passed, c, rest, r, htaken.cells_eq, htaken.passes, hlive, hkey, hpos⟩
          hkeep
    have hnone : SameBut key E1 [] := hE1 ▸ hskip E1
    rw [htaken.entries, hF1, List.append_nil]
    exact (SameBut.refl key F0).append (hnone.append (.refl key F2))

end Removal

end

end ISAM

end Rdbms
