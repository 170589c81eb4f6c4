import Mathlib.Data.List.Sort
import Rdbms.Isam.Remove
import Rdbms.Isam.Run

/-!
# Independence of keys

An operation on one key changes the chain of that key's bucket, and leaves the entries of the other
keys and their order, unless it detaches pages of the chain. There are two ways to do that: `_insert`
at a first page without records links it to a new page in the place of its old chain
(`AddDetaches`), and `_remove` of the only record of a page behind the second one links the first
page to the pages behind that (`RemoveDetaches`).
-/

namespace Rdbms

namespace ISAM
variable {κ : Type} [IntCast κ] [LinearOrder κ] {isam isam' : ISAM κ} {pos : Int}
  {cells cells' : List (Int × DataPage κ)} {E E' : List (Entry κ Int)} {k j : κ} {v : Int} {q : Nat}

/-! ## Insertion behind removals -/

omit [IntCast κ] [LinearOrder κ] in
/-- A chain whose first page has no records, and which goes on behind it. -/
def Vacated (cells : List (Int × DataPage κ)) : Prop :=
  ∃ c0 c1 rest, cells = c0 :: c1 :: rest ∧ c0.2.count = 0

/-- Along a whole chain. -/
theorem insert_pagesOk (memory : Slots κ) (k : κ) (v : Int) (h : isam.Chain pos cells)
    (hne : cells ≠ []) (hok : PagesOk cells)
    (hE : List.Forall₂ (IsEntry isam.dupFile) (live cells) E) :
    ∃ isam' cells' E',
      LoopReturns (fun _ => isam.insertBody { key := k, pos := v } memory) pos (.ok [v], isam') ∧
      Relinked isam pos cells isam' cells' E' ∧ PagesOk cells' ∧
      (∀ e ∈ E', e.key = k ∨ e ∈ E) ∧
      (E'.flatMap (·.pairs)).Subperm ((k, v) :: E.flatMap (·.pairs)) ∧
      (¬ Vacated cells → SameBut k E E') ∧
      ((∀ c ∈ cells, PageOk c) → Grown isam pos cells E k v isam' cells' E') := by
  obtain ⟨⟨pos', page⟩, rest, rfl⟩ := List.exists_cons_of_ne_nil hne
  obtain ⟨rfl, hread, hlink⟩ := Chain.cons_iff.1 h
  by_cases h0 : page.count = 0
  · have hbody : isam.insertBody { key := k, pos := v } memory pos' =
        some (.inr (.ok [v], isam.createPage pos' page { key := k, pos := v } memory)) := by
      have hempty : page.isEmpty = true := decide_eq_true h0
      rw [insertBody, hread]
      simp only [Option.bind_eq_bind, Option.bind_some, if_pos hempty]
    have hlive : page.live = [] := by rw [DataPage.live, h0, List.take_zero]
    let newPage : DataPage κ := (DataPage.new memory).setRecord { key := k, pos := v } 0
    have hnew : newPage.live = [{ key := k, pos := v }] := by
      obtain ⟨x, y, z, hm, hmem⟩ := (DataPage.new memory).exists_eq
      show ((DataPage.new memory).setRecord _ 0).live = _
      rw [hmem]
      rfl
    have hreads := readPage_two hread (page.setNext isam.endPos) newPage
    have hpos : pos' ≠ isam.endPos := fun e => by
      rw [e, readPage_endPos] at hread
      cases hread
    refine ⟨_, [(pos', page.setNext isam.endPos), (isam.endPos, newPage)], [⟨k, v, []⟩],
      .done (.of_eq fun _ => hbody), ⟨rfl, rfl, ?_, ?_, ?_, fun _ _ h => h, ?_⟩, ⟨?_, ?_⟩,
      fun e he => .inl (by rw [List.mem_singleton.1 he]),
      ((List.nil_sublist _).cons_cons (k, v)).subperm, ?_,
      fun hall => absurd h0 (Nat.one_le_iff_ne_zero.1 (hall _ (.head _)).1)⟩
    · refine Chain.cons_iff.2 ⟨rfl, (hreads pos').trans (if_pos rfl), Chain.cons_iff.2 ⟨rfl, ?_, .nil⟩⟩
      exact (hreads isam.endPos).trans ((if_neg hpos.symm).trans (if_pos rfl))
    · intro q page' hq hq'
      refine (hreads q).trans ?_
      rw [if_neg (hq (pos', page) (.head _)), if_neg (fun e => ?_), hq']
      rw [e, readPage_endPos] at hq'
      cases hq'
    · intro c hc
      rcases List.mem_pair.1 hc with rfl | rfl
      · exact .inl ⟨(pos', page), .head _, rfl⟩
      · exact .inr readPage_endPos
    · have hlive' : live [(pos', page.setNext isam.endPos), (isam.endPos, newPage)] =
          [{ key := k, pos := v }] := by
        rw [live_cons, live_cons, hnew, show (page.setNext isam.endPos).live = [] from hlive]
        rfl
      rw [hlive']
      exact .cons (isEntry_new _ k v) .nil
    · intro c hc
      rcases List.mem_pair.1 hc with rfl | rfl
      · exact hok.le (pos', page) (.head _)
      · exact Nat.le_add_left 1 2
    · intro c hc
      obtain rfl := List.mem_singleton.1 hc
      exact ⟨le_rfl, Nat.le_add_left 1 2⟩
    · intro hkeep
      cases rest with
      | cons c1 rest => exact absurd ⟨_, c1, rest, rfl, h0⟩ hkeep
      | nil =>
        rw [live_cons, hlive] at hE
        cases hE
        exact .middle (x := []) (y := [⟨k, v, []⟩]) [] [] (by simp) (by simp)
  · have hall : ∀ c ∈ (pos', page) :: rest, PageOk c :=
      List.forall_mem_cons.2 ⟨⟨Nat.one_le_iff_ne_zero.2 h0, hok.le _ (.head _)⟩, hok.tail⟩
    obtain ⟨isam', cells', E', hloop, hgrown⟩ := insert_chain (k := k) (v := v) memory h hne hall hE
    exact ⟨isam', cells', E', hloop, hgrown.toRelinked, .of_forall hgrown.pages,
      fun _ => hgrown.others.mem, hgrown.pairs.subperm,
      fun _ => hgrown.others, fun _ => hgrown⟩

/-! ## The index -/

/-- An index whose first pages may have lost their records. -/
structure Linked (isam : ISAM κ) (P : Partition κ Int 27) (C : Nat → List (Int × DataPage κ))
    (B : Nat → List (Entry κ Int)) : Prop where
  root : isam.Covers P.sep 3 isam.root 0
  buckets : isam.Buckets C B
  pages : ∀ q < 27, PagesOk (C q)

variable {P : Partition κ Int 27} {C : Nat → List (Int × DataPage κ)}
  {B : Nat → List (Entry κ Int)}

omit [IntCast κ] in
/-- A loaded index is linked. -/
theorem WellFormed.linked (h : isam.WellFormed P C) : isam.Linked P C P.bucket :=
  ⟨h.root, ⟨h.chain, h.disjoint, h.entries⟩, fun q hq => .of_forall (h.pages q hq)⟩

omit [IntCast κ] in
/-- Every chain has a page. -/
theorem Linked.chain_ne (h : isam.Linked P C B) (hq : q < 27) : C q ≠ [] :=
  mt (h.buckets.chain q hq).eq_nil_iff.1 Layout.pos_ne_neg_one

/-- From the buckets `B` to `B'` no entry has come but under `k`, in the bucket to which `k` is
routed. -/
def Routed (P : Partition κ Int 27) (k : κ) (B B' : Nat → List (Entry κ Int)) : Prop :=
  ∀ q, ∀ e ∈ B' q, e ∈ B q ∨ e.key = k ∧ P.Route (· ≤ k) q

omit [IntCast κ] in
/-- A bucket that is replaced may have got entries of the key that is routed to it. -/
theorem Routed.update (hroute : P.Route (· ≤ k) q) (hkeys : ∀ e ∈ E', e.key = k ∨ e ∈ B q) :
    Routed P k B (Function.update B q E') := by
  intro r e he
  rcases eq_or_ne r q with rfl | hne
  · rw [Function.update_self] at he
    exact (hkeys e he).symm.imp_right fun hk => ⟨hk, hroute⟩
  · rw [Function.update_of_ne hne] at he
    exact .inl he

/-- A pair in one of the buckets. -/
def Stores (B : Nat → List (Entry κ Int)) (p : κ × Int) : Prop :=
  ∃ q < 27, p ∈ (B q).flatMap (·.pairs)

omit [IntCast κ] [LinearOrder κ] in
/-- One bucket changes. -/
theorem Stores.of_update {p : κ × Int} (h : Stores (Function.update B q E') p) :
    p ∈ E'.flatMap (·.pairs) ∨ Stores B p := by
  obtain ⟨r, hr, hp⟩ := h
  rcases eq_or_ne r q with rfl | hne
  · rw [Function.update_self] at hp
    exact .inl hp
  · rw [Function.update_of_ne hne] at hp
    exact .inr ⟨r, hr, hp⟩

/-- The keys of the buckets are between the separators. -/
def Within (P : Partition κ Int 27) (B : Nat → List (Entry κ Int)) : Prop :=
  ∀ q < 27, ∀ e ∈ B q, (∀ i < q, P.sep i ≤ e.key) ∧ ∀ i, q ≤ i → i + 1 < 27 → e.key ≤ P.sep i

omit [IntCast κ] in
/-- An entry that is routed to its bucket keeps to the separators. -/
theorem Within.routed (h : Within P B) (hr : Routed P k B B') : Within P B' := by
  intro q hq e he
  rcases hr q e he with he | ⟨rfl, hroute⟩
  · exact h q hq e he
  · exact ⟨hroute.before, fun i hi hin => (not_le.1 (hroute.behind i hi hin)).le⟩

omit [IntCast κ] in
/-- One chain changes. -/
theorem Linked.relinked (h : isam.Linked P C B) (hq : q < 27)
    (hr : Relinked isam (dataPageLayout.pos q) (C q) isam' cells' E') (hok : PagesOk cells') :
    isam'.Linked P (Function.update C q cells') (Function.update B q E') where
  root := hr.root ▸ h.root.congr hr.idxFile
  buckets := hr.buckets h.buckets hq
  pages r hrlt := by
    rcases eq_or_ne r q with rfl | hne
    · rw [Function.update_self]
      exact hok
    · rw [Function.update_of_ne hne]
      exact h.pages r hrlt

omit [IntCast κ] [LinearOrder κ] in
/-- The way down depends on the index pages only. -/
theorem descend_congr (hidx : isam'.idxFile = isam.idxFile) (past : κ → Bool) (fuel : Nat)
    (pos : Int) : isam'.descend past fuel pos = isam.descend past fuel pos := by
  induction fuel generalizing pos with
  | zero => rfl
  | succ fuel ih => simp only [descend, hidx, ih]

omit [IntCast κ] in
/-- A lookup of another key is answered in the same way when one chain has changed. -/
theorem Linked.search_eq (h : isam.Linked P C B) (hq : q < 27)
    (hr : Relinked isam (dataPageLayout.pos q) (C q) isam' cells' E')
    (hsame : SameBut k (B q) E') (hj : j ≠ k) :
    ∃ res, Returns (isam.search · j) (.ok res) ∧ Returns (isam'.search · j) (.ok res) := by
  obtain ⟨r, hdescend, hroute⟩ := h.root.descend_le j
  have hbuckets := hr.buckets h.buckets hq
  have hdescend' : Returns (isam'.descend (· ≤ j) · isam'.root) (dataPageLayout.pos r) :=
    hdescend.congr fun fuel => by rw [hr.root, descend_congr hr.idxFile]
  have hvalues : firstValues (Function.update B q E' r) j = firstValues (B r) j := by
    rcases eq_or_ne r q with rfl | hne
    · rw [Function.update_self, firstValues, firstValues, hsame.find? hj]
    · rw [Function.update_of_ne hne]
  refine ⟨_, search_of_descend h.root.root_ne hdescend (h.buckets.chain r hroute.lt)
    (h.buckets.entries r hroute.lt), ?_⟩
  rw [← hvalues]
  exact search_of_descend (hr.root ▸ h.root.root_ne) hdescend' (hbuckets.chain r hroute.lt)
    (hbuckets.entries r hroute.lt)

/-- `add` of the key would detach the chain behind the first page of its bucket. -/
def AddDetaches (isam : ISAM κ) (k : κ) : Prop :=
  ∃ pos cells, Returns (isam.descend (· ≤ k) · isam.root) pos ∧ isam.Chain pos cells ∧ Vacated cells

/-- `remove` of the key would detach pages behind the first page of its bucket. -/
def RemoveDetaches (isam : ISAM κ) (k : κ) : Prop :=
  ∃ pos cells, Returns (isam.descend (· ≤ k) · isam.root) pos ∧ isam.Chain pos cells ∧
    Unlinks k cells

/-- One insertion, with what becomes of the chain of the key. -/
theorem Linked.add_at (h : isam.Linked P C B) (memory : Slots κ) (k : κ) (v : Int) :
    ∃ q isam' cells' E', P.Route (· ≤ k) q ∧
      Returns (isam.descend (· ≤ k) · isam.root) (dataPageLayout.pos q) ∧
      Returns (isam.add memory · k v) (.ok [v], isam') ∧
      Relinked isam (dataPageLayout.pos q) (C q) isam' cells' E' ∧ PagesOk cells' ∧
      (∀ e ∈ E', e.key = k ∨ e ∈ B q) ∧
      (E'.flatMap (·.pairs)).Subperm ((k, v) :: (B q).flatMap (·.pairs)) ∧
      (¬ Vacated (C q) → SameBut k (B q) E') ∧ ((∀ c ∈ C q, PageOk c) →
        Grown isam (dataPageLayout.pos q) (C q) (B q) k v isam' cells' E') := by
  obtain ⟨q, hdescend, hroute⟩ := h.root.descend_le k
  obtain ⟨isam', cells', E', hloop, hrelinked, hok, hkeys, hpairs, hsame, hgrown⟩ :=
    insert_pagesOk memory k v (h.buckets.chain q hroute.lt) (h.chain_ne hroute.lt)
      (h.pages q hroute.lt) (h.buckets.entries q hroute.lt)
  refine ⟨q, isam', cells', E', hroute, hdescend, ?_, hrelinked, hok, hkeys, hpairs, hsame, hgrown⟩
  refine (hdescend.bind (g := fun fuel dataPos =>
    loop (isam.insertBody { key := k, pos := v } memory) fuel dataPos)
    hloop.returns).congr fun fuel => ?_
  rw [ISAM.add, ISAM.addRecord, if_neg h.root.root_ne]
  rfl

/-- One insertion. -/
theorem Linked.add (h : isam.Linked P C B) (memory : Slots κ) (k : κ) (v : Int) :
    ∃ isam' C' B', Returns (isam.add memory · k v) (.ok [v], isam') ∧ isam'.Linked P C' B' ∧
      Routed P k B B' ∧ (∀ p, Stores B' p → p = (k, v) ∨ Stores B p) ∧
      (¬ isam.AddDetaches k → ∀ j ≠ k,
        ∃ res, Returns (isam.search · j) (.ok res) ∧ Returns (isam'.search · j) (.ok res)) := by
  obtain ⟨q, isam', cells', E', hroute, hdescend, hret, hrelinked, hok, hkeys, hpairs, hsame, -⟩ :=
    h.add_at memory k v
  refine ⟨isam', _, _, hret, h.relinked hroute.lt hrelinked hok, .update hroute hkeys,
    fun p hp => ?_, fun hkeep j hj => ?_⟩
  · rcases hp.of_update with hp | hp
    · exact (List.mem_cons.1 (hpairs.subset hp)).imp_right fun hp => ⟨q, hroute.lt, hp⟩
    · exact .inr hp
  · have hkeep' : ¬ Vacated (C q) := fun hv =>
      hkeep ⟨_, _, hdescend, h.buckets.chain q hroute.lt, hv⟩
    exact h.search_eq hroute.lt hrelinked (hsame hkeep') hj

/-- One removal, with what becomes of the chain of the key, and of its pages. -/
theorem Linked.remove_pages (h : isam.Linked P C B) (k : κ) :
    ∃ q res isam' cells' E', P.Route (· ≤ k) q ∧
      Returns (isam.descend (· ≤ k) · isam.root) (dataPageLayout.pos q) ∧
      Returns (isam.remove · k) (.ok res, isam') ∧
      Relinked isam (dataPageLayout.pos q) (C q) isam' cells' E' ∧ PagesOk cells' ∧
      Removal isam k (C q) (B q) res isam' E' ∧
      ((∀ c ∈ C q, PageOk c) → ¬ Empties k (C q) → ∀ c ∈ cells', PageOk c) := by
  obtain ⟨q, hdescend, hroute⟩ := h.root.descend_le k
  obtain ⟨res, isam', cells', E', hloop, hrelinked, hok, hremoval, hpages⟩ := remove_chain k
    (h.buckets.chain q hroute.lt) (h.chain_ne hroute.lt) (h.pages q hroute.lt)
    (h.buckets.entries q hroute.lt)
  refine ⟨q, res, isam', cells', E', hroute, hdescend, ?_, hrelinked, hok, hremoval, hpages⟩
  refine (hdescend.bind (g := fun fuel dataPos => loop (isam.removeBody k dataPos) fuel (dataPos, 0))
    hloop.returns).congr fun fuel => ?_
  rw [ISAM.remove, if_neg h.root.root_ne]
  rfl

/-- One removal, with what becomes of the chain of the key. -/
theorem Linked.remove_at (h : isam.Linked P C B) (k : κ) :
    ∃ q res isam' cells' E', P.Route (· ≤ k) q ∧
      Returns (isam.descend (· ≤ k) · isam.root) (dataPageLayout.pos q) ∧
      Returns (isam.remove · k) (.ok res, isam') ∧
      Relinked isam (dataPageLayout.pos q) (C q) isam' cells' E' ∧ PagesOk cells' ∧
      Removal isam k (C q) (B q) res isam' E' := by
  obtain ⟨q, res, isam', cells', E', hroute, hdescend, hret, hrelinked, hok, hremoval, -⟩ :=
    h.remove_pages k
  exact ⟨q, res, isam', cells', E', hroute, hdescend, hret, hrelinked, hok, hremoval⟩

/-- One removal. -/
theorem Linked.remove (h : isam.Linked P C B) (k : κ) :
    ∃ res isam' C' B', Returns (isam.remove · k) (.ok res, isam') ∧ isam'.Linked P C' B' ∧
      Routed P k B B' ∧ (∀ p, Stores B' p → Stores B p) ∧ (¬ isam.RemoveDetaches k → ∀ j ≠ k,
        ∃ res, Returns (isam.search · j) (.ok res) ∧ Returns (isam'.search · j) (.ok res)) := by
  obtain ⟨q, res, isam', cells', E', hroute, hdescend, hret, hrelinked, hok, hremoval⟩ := h.remove_at k
  refine ⟨res, isam', _, _, hret, h.relinked hroute.lt hrelinked hok,
    .update hroute fun e he => .inr (hremoval.sublist.subset he), fun p hp => ?_, fun hkeep j hj => ?_⟩
  · rcases hp.of_update with hp | hp
    · obtain ⟨e, he, hp⟩ := List.mem_flatMap.1 hp
      exact ⟨q, hroute.lt, List.mem_flatMap.2 ⟨e, hremoval.sublist.subset he, hp⟩⟩
    · exact hp
  · have hkeep' : ¬ Unlinks k (C q) :=
      fun hu => hkeep ⟨_, _, hdescend, h.buckets.chain q hroute.lt, hu⟩
    exact h.search_eq hroute.lt hrelinked (hremoval.sameBut hkeep') hj

/-! ## Runs -/

/-- The states that a load of a new index and calls of `add` and `remove` lead to. -/
inductive Reached (sort : List (ISAMRecord κ) → List (ISAMRecord κ)) : ISAM κ → Prop
  | load {isam : ISAM κ} {res : Except Exn _} (memory : Nat → Slots κ) (batch : List (κ × Int)) :
      maxRecords ≤ batch.length → Returns (create.bulkInsert sort memory · batch) (res, isam) →
      Reached sort isam
  | add {isam isam' : ISAM κ} {res : Except Exn _} (memory : Slots κ) (k : κ) (v : Int) :
      Reached sort isam → Returns (isam.add memory · k v) (res, isam') → Reached sort isam'
  | remove {isam isam' : ISAM κ} {res : Except Exn _} (k : κ) :
      Reached sort isam → Returns (isam.remove · k) (res, isam') → Reached sort isam'

variable {sort : List (ISAMRecord κ) → List (ISAMRecord κ)}

/-- Every run, also through operations that detach pages. -/
theorem Reached.linked
    (hsort : ∀ l, (sort l).Perm l ∧ (sort l).Pairwise fun a b => a.key ≤ b.key)
    (h : Reached sort isam) : ∃ P C B, isam.Linked P C B ∧ Within P B := by
  induction h with
  | load memory batch hlen hret =>
    obtain ⟨isam', P, C, hret', hwf, -⟩ := bulkInsert_wellFormed hsort memory _ hlen
    cases hret.unique hret'
    exact ⟨P, C, P.bucket, hwf.linked, fun q hq e he => ⟨P.lower q hq e he, P.upper q hq e he⟩⟩
  | add memory k v _ hret ih =>
    obtain ⟨P, C, B, hlinked, hw⟩ := ih
    obtain ⟨isam', C', B', hret', hlinked', hrouted, -, -⟩ := hlinked.add memory k v
    cases hret.unique hret'
    exact ⟨P, C', B', hlinked', hw.routed hrouted⟩
  | remove k _ hret ih =>
    obtain ⟨P, C, B, hlinked, hw⟩ := ih
    obtain ⟨res, isam', C', B', hret', hlinked', hrouted, -, -⟩ := hlinked.remove k
    cases hret.unique hret'
    exact ⟨P, C', B', hlinked', hw.routed hrouted⟩

/-- In every state that a load, insertions and removals lead to: an insertion and a removal come
back, and one that detaches no page leaves the answer of `search` for every other key. -/
theorem independent_of_run
    (hsort : ∀ l, (sort l).Perm l ∧ (sort l).Pairwise fun a b => a.key ≤ b.key)
    (h : Reached sort isam) :
    (∀ memory k v, ∃ isam', Returns (isam.add memory · k v) (.ok [v], isam') ∧
      (¬ isam.AddDetaches k → ∀ j ≠ k,
        ∃ res, Returns (isam.search · j) (.ok res) ∧ Returns (isam'.search · j) (.ok res))) ∧
    ∀ k, ∃ res isam', Returns (isam.remove · k) (.ok res, isam') ∧
      (¬ isam.RemoveDetaches k → ∀ j ≠ k,
        ∃ res, Returns (isam.search · j) (.ok res) ∧ Returns (isam'.search · j) (.ok res)) := by
  obtain ⟨P, C, B, hlinked, -⟩ := h.linked hsort
  refine ⟨fun memory k v => ?_, fun k => ?_⟩
  · obtain ⟨isam', -, -, hret, -, -, -, hkeep⟩ := hlinked.add memory k v
    exact ⟨isam', hret, hkeep⟩
  · obtain ⟨res, isam', -, -, hret, -, -, -, hkeep⟩ := hlinked.remove k
    exact ⟨res, isam', hret, hkeep⟩

omit [IntCast κ] in
/-- Where no page is without records, an insertion detaches nothing. -/
theorem WellFormed.not_addDetaches (h : isam.WellFormed P C) (k : κ) : ¬ isam.AddDetaches k := by
  rintro ⟨pos, cells, hdescend, hchain, c0, c1, rest, rfl, h0⟩
  obtain ⟨q, hdescend', hroute⟩ := h.root.descend_le k
  obtain rfl := hdescend.unique hdescend'
  have hend : isam.cellAt endOfFile = none := by
    rw [cellAt, readPage, Layout.read_neg_one]
    rfl
  obtain ⟨hcells, -⟩ := Path.unique hchain hend (h.chain q hroute.lt) hend
  have h1 : PageOk c0 := h.pages q hroute.lt c0 (hcells ▸ .head _)
  exact absurd h0 (Nat.one_le_iff_ne_zero.1 h1.1)

/-- A load of rows that all go into the first data pages. -/
theorem bulkInsert_of_levels {memory : Nat → Slots κ} {batch : List (κ × Int)}
    (hlen : maxRecords ≤ batch.length) (levels : Int × Builder κ)
    (hlevels : levels = buildLevels (sort (batch.map fun p => { key := p.1, pos := p.2 })) memory)
    (hrest : (sort (batch.map fun p => { key := p.1, pos := p.2 })).length ≤ levels.2.index)
    (fuel : Nat) : create.bulkInsert sort memory fuel batch =
      some (.ok ([1], [true]), ⟨levels.1, levels.2.idxFile, levels.2.dtFile, []⟩) := by
  have hlen' : ¬ (batch.map fun p => ({ key := p.1, pos := p.2 } : ISAMRecord κ)).length <
      maxRecords := by rwa [List.length_map, not_lt]
  simp only [bulkInsert, build, if_neg hlen', ← hlevels, List.drop_of_length_le hrest, addRest]
  rfl

/-- Rows with the keys 0 to 80. -/
def sampleRows : List (Int × Int) := (List.range 81).map fun i => ((i : Int), (i : Int))

/-- After a load of 81 rows an insertion of one more leaves the answer for the key 5. -/
theorem independent_of_run_sample : ∃ isam isam' : ISAM Int, Reached sortByKey isam ∧
    Returns (isam.add ⟨List.replicate 3 default, rfl⟩ · 100 7) (.ok [7], isam') ∧
    ∃ res, Returns (isam.search · 5) (.ok res) ∧ Returns (isam'.search · 5) (.ok res) := by
  obtain ⟨isam, P, C, hret, hwf, -⟩ := bulkInsert_wellFormed sortByKey_spec
    (fun _ => default) sampleRows (by decide)
  have h : Reached sortByKey isam := .load _ _ (by decide) hret
  obtain ⟨isam', hadd, hkeep⟩ :=
    (independent_of_run sortByKey_spec h).1 ⟨List.replicate 3 default, rfl⟩ 100 7
  exact ⟨isam, isam', h, hadd, hkeep (hwf.not_addDetaches 100) 5 (by decide)⟩

/-- An insertion sort by key. -/
def insertionSortByKey (l : List (ISAMRecord Int)) : List (ISAMRecord Int) :=
  l.insertionSort fun a b => a.key ≤ b.key

/-- An insertion sort is a sort. -/
theorem insertionSortByKey_spec (l : List (ISAMRecord Int)) :
    (insertionSortByKey l).Perm l ∧ (insertionSortByKey l).Pairwise fun a b => a.key ≤ b.key := by
  have : Std.Total fun a b : ISAMRecord Int => a.key ≤ b.key := ⟨fun a b => le_total a.key b.key⟩
  have : IsTrans _ fun a b : ISAMRecord Int => a.key ≤ b.key := ⟨fun a b c => le_trans⟩
  exact ⟨List.perm_insertionSort _ l, List.pairwise_insertionSort _ l⟩

/-- What the index pages and the first data pages over the rows with the keys 0 to 80 are. -/
def sampleLevels : Int × Builder Int :=
  buildLevels (insertionSortByKey (sampleRows.map fun p => { key := p.1, pos := p.2 }))
    fun _ => ⟨List.replicate 3 default, rfl⟩

/-- The rows of the first page are removed, and the first two keys come back. The second of them
detaches the page of the first. -/
theorem not_independent :
    (∀ l, (insertionSortByKey l).Perm l ∧
      (insertionSortByKey l).Pairwise fun a b => a.key ≤ b.key) ∧
    ∃ isam isam' : ISAM Int, Reached insertionSortByKey isam ∧
      Returns (isam.add ⟨List.replicate 3 default, rfl⟩ · 1 101) (.ok [101], isam') ∧
      Returns (isam.search · 0) (.ok [100]) ∧ Returns (isam'.search · 0) (.ok []) := by
  have r0 : Reached insertionSortByKey
      ⟨sampleLevels.1, sampleLevels.2.idxFile, sampleLevels.2.dtFile, []⟩ :=
    .load (fun _ => default) sampleRows (by decide)
      (.of_eq (bulkInsert_of_levels (by decide) sampleLevels rfl (by decide +kernel)))
  have r1 : Reached insertionSortByKey _ := .remove 0 r0 (.of_add 5 fun _ => rfl)
  have r2 : Reached insertionSortByKey _ := .remove 1 r1 (.of_add 5 fun _ => rfl)
  have r3 : Reached insertionSortByKey _ := .remove 2 r2 (.of_add 5 fun _ => rfl)
  have r4 : Reached insertionSortByKey _ :=
    .add ⟨List.replicate 3 default, rfl⟩ 0 100 r3 (.of_add 5 fun _ => rfl)
  exact ⟨insertionSortByKey_spec, _, _, r4, .of_add 5 fun _ => rfl, .of_add 5 fun _ => rfl,
    .of_add 5 fun _ => rfl⟩

end ISAM

end Rdbms
