import Rdbms.Isam.Invariant

/-!
# Insertion

`_insert` ends at one page of the chain of the key's bucket: a duplicate goes to the duplicates file,
a new key into the page, into one of the two pages it is split into, or into a new page behind it.
In each case some pages take the place of that page in the chain (`Replaced`), and what the chain
holds grows by the new pair (`Grown`).
-/

namespace Rdbms

namespace ISAM
variable {κ : Type} {isam isam' isam1 : ISAM κ} {pos : Int} {page page1 page2 : DataPage κ}
  {c d : Int × DataPage κ} {cells cells' rest : List (Int × DataPage κ)} {record : ISAMRecord κ}
  {memory : Slots κ} {E E1 E2 : List (Entry κ Int)} {k : κ} {v : Int}

/-- The pages `cells` have taken the place of the page at `pos`: the first stands there, the others
are new, and the last one links to where the page did. -/
structure Replaced (isam : ISAM κ) (pos : Int) (page : DataPage κ)
    (cells : List (Int × DataPage κ)) (isam' : ISAM κ) : Prop where
  root : isam'.root = isam.root
  idxFile : isam'.idxFile = isam.idxFile
  path : Path isam'.cellAt (·.2.next) pos cells page.next
  reads : ∀ q page', q ≠ pos → isam.readPage q = some page' → isam'.readPage q = some page'
  fresh : ∀ c ∈ cells, c.1 = pos ∨ isam.readPage c.1 = none
  pages : ∀ c ∈ cells, PageOk c

/-! ## Writing pages -/

/-- A page that is written over another is read in its place. -/
theorem readPage_writePage (h : isam.readPage pos = some page) (q : Int) :
    (isam.writePage pos page1).readPage q = if q = pos then some page1 else isam.readPage q :=
  Layout.read_write h

/-- A page that is appended is read at the old end. -/
theorem readPage_append (q : Int) : (isam.writePage isam.endPos page1).readPage q =
    if q = isam.endPos then some page1 else isam.readPage q := by
  have hw : dataPageLayout.write isam.dtFile isam.endPos page1 = isam.dtFile ++ [page1] :=
    Layout.write_endPos
  rw [readPage, writePage, hw]
  exact Layout.read_append_singleton

/-- Nothing is read at the end of the file. -/
theorem readPage_endPos : isam.readPage isam.endPos = none := Layout.read_endPos

/-- A page that is written over after another has gone to the end of the file. -/
theorem readPage_two (h : isam.readPage pos = some page) (page1 page2 : DataPage κ) (q : Int) :
    ((isam.writePage isam.endPos page2).writePage pos page1).readPage q =
      if q = pos then some page1 else if q = isam.endPos then some page2 else isam.readPage q := by
  have hpos : pos ≠ isam.endPos := fun e => by
    rw [e, readPage_endPos] at h
    cases h
  have h1 : (isam.writePage isam.endPos page2).readPage pos = some page := by
    rw [readPage_append, if_neg hpos, h]
  rw [readPage_writePage h1, readPage_append]

/-- A page that is written over. -/
theorem replaced_one (h : isam.readPage pos = some page) (hnext : page1.next = page.next)
    (hok : PageOk (pos, page1)) : Replaced isam pos page [(pos, page1)] (isam.writePage pos page1) where
  root := rfl
  idxFile := rfl
  path := by
    refine .cons ?_ (hnext ▸ .nil)
    rw [cellAt, readPage_writePage h, if_pos rfl, Option.map_some]
  reads q page' hq hread := by rw [readPage_writePage h, if_neg hq, hread]
  fresh c hc := .inl (by rw [List.mem_singleton.1 hc])
  pages c hc := List.mem_singleton.1 hc ▸ hok

/-- A page that is written over after a new page has gone to the end of the file. -/
theorem replaced_two (h : isam.readPage pos = some page) (hnext : page2.next = page.next)
    (hok1 : PageOk (pos, page1)) (hok2 : PageOk (isam.endPos, page2)) :
    Replaced isam pos page [(pos, page1.setNext isam.endPos), (isam.endPos, page2)]
      ((isam.writePage isam.endPos page2).writePage pos (page1.setNext isam.endPos)) := by
  have hpos : pos ≠ isam.endPos := fun e => by
    rw [e, readPage_endPos] at h
    cases h
  have hread := readPage_two h (page1.setNext isam.endPos) page2
  refine ⟨rfl, rfl, .cons ?_ (.cons ?_ (hnext ▸ .nil)), fun q page' hq hq' => ?_, ?_, ?_⟩
  · rw [cellAt, hread, if_pos rfl, Option.map_some]
  · rw [show (page1.setNext isam.endPos).next = isam.endPos from rfl, cellAt, hread,
      if_neg hpos.symm, if_pos rfl, Option.map_some]
  · rw [hread, if_neg hq, if_neg (fun e => ?_), hq']
    rw [e, readPage_endPos] at hq'
    cases hq'
  · intro c hc
    rcases List.mem_pair.1 hc with rfl | rfl
    · exact .inl rfl
    · exact .inr readPage_endPos
  · intro c hc
    rcases List.mem_pair.1 hc with rfl | rfl
    · exact hok1
    · exact hok2

/-! ## A new record -/

/-- The record has been put among those of the page at `pos`. -/
def Stored (isam : ISAM κ) (pos : Int) (page : DataPage κ) (record : ISAMRecord κ)
    (isam' : ISAM κ) : Prop :=
  isam'.dupFile = isam.dupFile ∧
    ∃ cells, Replaced isam pos page cells isam' ∧ Inserted record page.live (live cells)

/-- `createPage` puts the record on a new page behind the last one. -/
theorem createPage_stored (record : ISAMRecord κ) (memory : Slots κ)
    (h : isam.readPage pos = some page) (hok : PageOk (pos, page))
    (hlast : page.next = -1) :
    Stored isam pos page record (isam.createPage pos page record memory) := by
  have hlive : ((DataPage.new memory).setRecord record 0).live = [record] := by
    obtain ⟨x, y, z, hm, hmem⟩ := (DataPage.new memory).exists_eq
    rw [hmem]
    rfl
  refine ⟨rfl, _, replaced_two h hlast.symm hok ⟨le_rfl, Nat.le_add_left 1 2⟩, ?_⟩
  simp only [live, List.flatMap_cons, List.flatMap_nil, List.append_nil, hlive]
  exact .concat record page.live

section
variable [IntCast κ] [LinearOrder κ]

/-- `insertPage` puts the record on a page that is not full. -/
theorem insertPage_stored (record : ISAMRecord κ) (h : isam.readPage pos = some page)
    (hok : PageOk (pos, page)) (hfull : page.isFull ≠ true) :
    ∃ isam', isam.insertPage pos page record = (.ok [record.pos], isam') ∧
      Stored isam pos page record isam' := by
  rw [Ne, DataPage.isFull_iff] at hfull
  have hle : page.count ≤ 3 := hok.2
  obtain ⟨page1, hins, hlive, hcount, hnext⟩ :=
    DataPage.insertRecord_live record (show page.count < 3 by omega)
  have hok1 : PageOk (pos, page1) := by
    constructor
    · show 1 ≤ page1.count
      omega
    · show page1.count ≤ 3
      omega
  refine ⟨isam.writePage pos page1, by rw [insertPage, hins], rfl, [(pos, page1)],
    replaced_one h hnext hok1, ?_⟩
  simpa [live] using hlive

/-- `splitPage` puts the record on one of the two pages. -/
theorem splitPage_stored (record : ISAMRecord κ) (memory : Slots κ)
    (h : isam.readPage pos = some page) (hfull : page.isFull = true) :
    ∃ isam', isam.splitPage pos page record memory = (.ok [record.pos], isam') ∧
      Stored isam pos page record isam' := by
  rw [DataPage.isFull_iff] at hfull
  obtain ⟨page1, page2, hsplit, hlive, hok1, hok2, hnext⟩ :=
    DataPage.splitAndInsert_live record memory hfull
  refine ⟨(isam.writePage isam.endPos page2).writePage pos (page1.setNext isam.endPos),
    by rw [splitPage, hsplit], rfl, _, replaced_two h hnext hok1 hok2, ?_⟩
  simpa [live, DataPage.setNext, DataPage.live] using hlive

end

/-! ## What a chain holds -/

/-- From `isam` to `isam'` the chain `cells` at `pos` has become the chain `cells'` with the entries
`E'`, and no page of another chain has changed. -/
structure Relinked (isam : ISAM κ) (pos : Int) (cells : List (Int × DataPage κ)) (isam' : ISAM κ)
    (cells' : List (Int × DataPage κ)) (E' : List (Entry κ Int)) : Prop where
  root : isam'.root = isam.root
  idxFile : isam'.idxFile = isam.idxFile
  chain : isam'.Chain pos cells'
  reads : ∀ q page, (∀ c ∈ cells, q ≠ c.1) → isam.readPage q = some page →
    isam'.readPage q = some page
  fresh : ∀ c ∈ cells', (∃ d ∈ cells, c.1 = d.1) ∨ isam.readPage c.1 = none
  isEntry : ∀ r e, IsEntry isam.dupFile r e → IsEntry isam'.dupFile r e
  entries : List.Forall₂ (IsEntry isam'.dupFile) (live cells') E'

/-- The chain `cells` at `pos` with the entries `E` has become the chain `cells'` with the entries
`E'`, which hold one pair more. -/
structure Grown (isam : ISAM κ) (pos : Int) (cells : List (Int × DataPage κ))
    (E : List (Entry κ Int)) (k : κ) (v : Int) (isam' : ISAM κ)
    (cells' : List (Int × DataPage κ)) (E' : List (Entry κ Int)) : Prop
    extends Relinked isam pos cells isam' cells' E' where
  pages : ∀ c ∈ cells', PageOk c
  others : SameBut k E E'
  keys : ∀ x, x ∈ E'.map (·.key) ↔ x = k ∨ x ∈ E.map (·.key)
  pairs : (E'.flatMap (·.pairs)).Perm ((k, v) :: E.flatMap (·.pairs))

/-- The records of two parts of a chain. -/
theorem live_append : live (cells ++ cells') = live cells ++ live cells' := List.flatMap_append

/-- The pages of a chain are read where they stand. -/
theorem Chain.read (h : isam.Chain pos cells) (hc : c ∈ cells) : isam.readPage c.1 = some c.2 := by
  obtain ⟨q, hq⟩ := Path.exists_read h hc
  obtain ⟨page, hpage, rfl⟩ := Option.map_eq_some_iff.1 hq
  exact hpage

/-- No page stands twice in a chain. -/
theorem Chain.ne_of_mem (h : isam.Chain pos (c :: cells)) (hd : d ∈ cells) : d.1 ≠ c.1 := by
  intro he
  have hnil : isam.cellAt endOfFile = none := by
    rw [cellAt, readPage, Layout.read_neg_one]
    rfl
  refine Path.not_mem_of_cons h hnil (fun q hq => ?_) (?_ : c ∈ cells)
  · obtain ⟨page, -, rfl⟩ := Option.map_eq_some_iff.1 hq
    exact (Chain.cons_iff.1 h).1
  · have h1 := Chain.read h (c := c) (.head _)
    have h2 := Chain.read h (.tail _ hd)
    rw [he, h1] at h2
    obtain rfl : d = c := Prod.ext he (Option.some.inj h2).symm
    exact hd

/-- The chain after pages have taken the place of its first one. -/
theorem Replaced.chain (h : Replaced isam pos page cells isam')
    (hc : isam.Chain pos ((pos, page) :: rest)) : isam'.Chain pos (cells ++ rest) := by
  refine Path.append h.path (Path.congr (Chain.cons_iff.1 hc).2.2 fun q d hd hq => ?_)
  obtain ⟨page', hpage', rfl⟩ := Option.map_eq_some_iff.1 hq
  rw [cellAt, h.reads q page' (hc.ne_of_mem hd) hpage', Option.map_some]

/-- Pages that take the place of the first page of a chain, with what they hold. -/
theorem Replaced.grown (h : Replaced isam pos page cells isam')
    (hc : isam.Chain pos ((pos, page) :: rest)) (hok : ∀ c ∈ rest, PageOk c)
    (hdup : ∀ r e, IsEntry isam.dupFile r e → IsEntry isam'.dupFile r e)
    {E1' : List (Entry κ Int)} (hE1 : List.Forall₂ (IsEntry isam'.dupFile) (live cells) E1')
    (hE2 : List.Forall₂ (IsEntry isam.dupFile) (live rest) E2)
    (hothers : SameBut k E1 E1') (hkeys : ∀ x, x ∈ E1'.map (·.key) ↔ x = k ∨ x ∈ E1.map (·.key))
    (hpairs : (E1'.flatMap (·.pairs)).Perm ((k, v) :: E1.flatMap (·.pairs))) :
    Grown isam pos ((pos, page) :: rest) (E1 ++ E2) k v isam' (cells ++ rest) (E1' ++ E2) where
  root := h.root
  idxFile := h.idxFile
  chain := h.chain hc
  reads q page' hq hread := h.reads q page' (hq (pos, page) (.head _)) hread
  fresh c hc := by
    rcases List.mem_append.1 hc with hc | hc
    · exact (h.fresh c hc).imp (fun e => ⟨_, .head _, e⟩) id
    · exact .inl ⟨c, .tail _ hc, rfl⟩
  pages c hc := (List.mem_append.1 hc).elim (h.pages c) (hok c)
  isEntry := hdup
  entries := by
    rw [live_append]
    exact List.rel_append hE1 (hE2.imp hdup)
  others := hothers.append (.refl k E2)
  keys x := by
    rw [List.map_append, List.map_append, List.mem_append, List.mem_append, hkeys, or_assoc]
  pairs := by
    rw [List.flatMap_append, List.flatMap_append]
    exact hpairs.append_right _

/-- A page in front of a chain that has changed. -/
theorem Relinked.cons {E' : List (Entry κ Int)} (hc : isam.Chain pos (c :: rest))
    (hE1 : List.Forall₂ (IsEntry isam.dupFile) c.2.live E1)
    (h : Relinked isam c.2.next rest isam' cells' E') :
    Relinked isam pos (c :: rest) isam' (c :: cells') (E1 ++ E') where
  root := h.root
  idxFile := h.idxFile
  chain := by
    obtain ⟨hpos, hread, -⟩ := Chain.cons_iff.1 hc
    refine Chain.cons_iff.2 ⟨hpos, h.reads pos c.2 (fun d hd => ?_) hread, h.chain⟩
    rw [← hpos]
    exact (hc.ne_of_mem hd).symm
  reads q page hq := h.reads q page fun d hd => hq d (.tail _ hd)
  fresh d hd := by
    rcases List.mem_cons.1 hd with rfl | hd
    · exact .inl ⟨d, .head _, rfl⟩
    · exact (h.fresh d hd).imp (fun ⟨x, hx, e⟩ => ⟨x, .tail _ hx, e⟩) id
  isEntry := h.isEntry
  entries := by
    rw [live_cons]
    exact List.rel_append (hE1.imp h.isEntry) h.entries

/-- What the rest of a chain has grown by, the whole chain has. -/
theorem Grown.cons {E' : List (Entry κ Int)} (hc : isam.Chain pos (c :: rest)) (hok : PageOk c)
    (hE1 : List.Forall₂ (IsEntry isam.dupFile) c.2.live E1)
    (h : Grown isam c.2.next rest E k v isam' cells' E') :
    Grown isam pos (c :: rest) (E1 ++ E) k v isam' (c :: cells') (E1 ++ E') where
  toRelinked := h.toRelinked.cons hc hE1
  pages d hd := by
    rcases List.mem_cons.1 hd with rfl | hd
    · exact hok
    · exact h.pages d hd
  others := (SameBut.refl k E1).append h.others
  keys x := by
    rw [List.map_append, List.map_append, List.mem_append, List.mem_append, h.keys, or_left_comm]
  pairs := by
    rw [List.flatMap_append, List.flatMap_append]
    exact (h.pairs.append_left _).trans List.perm_middle

/-- A new record without duplicates. -/
theorem isEntry_new (dupFile : List (ISAMRecord κ)) (k : κ) (v : Int) :
    IsEntry dupFile { key := k, pos := v } ⟨k, v, []⟩ :=
  ⟨rfl, rfl, [], .nil, rfl⟩

/-- A record that has been stored in the first page of a chain. -/
theorem Stored.grown (h : Stored isam pos page { key := k, pos := v } isam')
    (hc : isam.Chain pos ((pos, page) :: rest)) (hok : ∀ c ∈ rest, PageOk c)
    (hE1 : List.Forall₂ (IsEntry isam.dupFile) page.live E1)
    (hE2 : List.Forall₂ (IsEntry isam.dupFile) (live rest) E2) :
    ∃ cells' E', Grown isam pos ((pos, page) :: rest) (E1 ++ E2) k v isam' cells' E' := by
  obtain ⟨hdup, cells, hrep, l1, l2, hold, hnew⟩ := h
  rw [hold] at hE1
  obtain ⟨F1, F2, rfl, hF1, hF2⟩ := Multimap.forall₂_append_left hE1
  have hE1' : List.Forall₂ (IsEntry isam.dupFile) (live cells) (F1 ++ ⟨k, v, []⟩ :: F2) := by
    rw [hnew]
    exact List.rel_append hF1 (.cons (isEntry_new isam.dupFile k v) hF2)
  refine ⟨_, _, hrep.grown hc hok (hdup ▸ fun _ _ h => h) (hdup ▸ hE1') hE2 ?_ (fun x => ?_) ?_⟩
  · exact .middle (x := []) (y := [⟨k, v, []⟩]) F1 F2 nofun (by simp)
  · simp only [List.map_append, List.map_cons, List.mem_append, List.mem_cons]
    exact or_left_comm
  · rw [List.flatMap_append, List.flatMap_append, List.flatMap_cons]
    exact List.perm_middle

/-- A record that gets one more duplicate. -/
theorem insertDuplicate_grown (hc : isam.Chain pos ((pos, page) :: rest))
    (hok : ∀ c ∈ (pos, page) :: rest, PageOk c)
    (hE1 : List.Forall₂ (IsEntry isam.dupFile) page.live E1)
    (hE2 : List.Forall₂ (IsEntry isam.dupFile) (live rest) E2)
    {l1 l2 : List (ISAMRecord κ)} {r : ISAMRecord κ} (hlive : page.live = l1 ++ r :: l2)
    (hlive1 : page1.live = l1 ++ (isam.insertDuplicate r { key := r.key, pos := v }).1 :: l2)
    (hcount : page1.count = page.count) (hnext : page1.next = page.next) :
    ∃ E', Grown isam pos ((pos, page) :: rest) (E1 ++ E2) r.key v
      ((isam.insertDuplicate r { key := r.key, pos := v }).2.writePage pos page1)
      ((pos, page1) :: rest) E' := by
  obtain ⟨-, hread, -⟩ := Chain.cons_iff.1 hc
  have hok1 : PageOk (pos, page1) := by
    have := hok (pos, page) (.head _)
    rwa [PageOk, ← hcount] at this
  have hrep : Replaced isam pos page [(pos, page1)]
      ((isam.insertDuplicate r { key := r.key, pos := v }).2.writePage pos page1) := by
    obtain ⟨h1, h2, h3, h4, h5, h6⟩ := replaced_one hread hnext hok1
    exact ⟨h1, h2, h3, h4, h5, h6⟩
  have hdup : ∀ (x : ISAMRecord κ) e, IsEntry isam.dupFile x e → IsEntry
      (isam.dupFile ++ [{ key := r.key, pos := v, dupPos := r.dupPos }]) x e :=
    fun x e h => ⟨h.1, h.2.append _⟩
  rw [hlive] at hE1
  obtain ⟨F1, F2, rfl, hF1, hF2⟩ := Multimap.forall₂_append_left hE1
  cases hF2 with
  | @cons _ e _ F2 he hF2 =>
    have hE1' : List.Forall₂ (IsEntry (isam.dupFile ++ [{ key := r.key, pos := v, dupPos := r.dupPos }]))
        (live [(pos, page1)]) (F1 ++ e.add v :: F2) := by
      simp only [live, List.flatMap_cons, List.flatMap_nil, List.append_nil, hlive1]
      refine List.rel_append (hF1.imp hdup) (.cons ⟨he.1, ?_⟩ (hF2.imp hdup))
      exact he.2.insertDuplicate { key := r.key, pos := v, dupPos := r.dupPos } rfl
    refine ⟨_, hrep.grown hc (fun c hc => hok c (.tail _ hc)) hdup hE1' hE2 ?_
      (fun x => ?_) ?_⟩
    · exact .middle (x := [e]) (y := [e.add v]) F1 F2 (by simp [he.1]) (by simp [he.1])
    · have hk : e.key = r.key := he.1.symm
      simp only [List.map_append, List.map_cons, List.mem_append, List.mem_cons, Entry.key_add, hk]
      tauto
    · rw [List.flatMap_append, List.flatMap_append, List.flatMap_cons, List.flatMap_cons, he.1]
      exact (((e.pairs_add v).append_right _).append_left _).trans List.perm_middle

section
variable [IntCast κ] [LinearOrder κ]

/-- The element that `findIdx` stops at, with what is before and behind it. -/
theorem exists_split_findIdx {α : Type*} {p : α → Bool} {l : List α}
    (h : l.findIdx p < l.length) :
    ∃ l1 a l2, l = l1 ++ a :: l2 ∧ l1.length = l.findIdx p ∧ p a = true := by
  refine ⟨l.take (l.findIdx p), l[l.findIdx p], l.drop (l.findIdx p + 1), ?_,
    List.length_take_of_le h.le, List.findIdx_getElem⟩
  rw [← List.drop_eq_getElem_cons h, List.take_append_drop]

/-- One round of the loop at a page where it ends. -/
theorem insertBody_grown (memory : Slots κ) (hc : isam.Chain pos ((pos, page) :: rest))
    (hok : ∀ c ∈ (pos, page) :: rest, PageOk c)
    (hE1 : List.Forall₂ (IsEntry isam.dupFile) page.live E1)
    (hE2 : List.Forall₂ (IsEntry isam.dupFile) (live rest) E2)
    (hends : ¬ (page.last.key < k ∧ page.next ≠ -1)) :
    ∃ isam' cells' E', isam.insertBody { key := k, pos := v } memory pos =
        some (.inr (.ok [v], isam')) ∧
      Grown isam pos ((pos, page) :: rest) (E1 ++ E2) k v isam' cells' E' := by
  obtain ⟨-, hread, -⟩ := Chain.cons_iff.1 hc
  have hpage : PageOk (pos, page) := hok _ (.head _)
  have hrest : ∀ c ∈ rest, PageOk c := fun c hc => hok c (.tail _ hc)
  have hempty : ¬ page.isEmpty = true := by
    rw [DataPage.isEmpty, decide_eq_true_eq]
    exact Nat.one_le_iff_ne_zero.1 hpage.1
  rw [insertBody, hread]
  simp only [Option.bind_eq_bind, Option.bind_some, if_neg hempty]
  by_cases hlast : k ≤ page.last.key
  · rw [if_pos hlast]
    by_cases hi : page.live.findIdx (·.key = k) < page.live.length
    · obtain ⟨l1, r, l2, hlive, hlen, hkey⟩ := exists_split_findIdx hi
      obtain rfl : r.key = k := by simpa using hkey
      obtain ⟨hget, hset⟩ := DataPage.setRecord_live
        (isam.insertDuplicate r { key := r.key, pos := v }).1 hlive
      obtain ⟨E', hgrown⟩ := insertDuplicate_grown hc hok hE1 hE2 hlive hset rfl rfl
      exact ⟨_, _, E', by rw [if_pos hi, ← hlen, hget], hgrown⟩
    · rw [if_neg hi]
      by_cases hfull : page.isFull = true
      · obtain ⟨isam', heq, hstored⟩ := splitPage_stored { key := k, pos := v } memory hread hfull
        obtain ⟨cells', E', hgrown⟩ := hstored.grown hc hrest hE1 hE2
        exact ⟨isam', cells', E', by rw [if_pos hfull, heq], hgrown⟩
      · obtain ⟨isam', heq, hstored⟩ := insertPage_stored { key := k, pos := v } hread hpage hfull
        obtain ⟨cells', E', hgrown⟩ := hstored.grown hc hrest hE1 hE2
        exact ⟨isam', cells', E', by rw [if_neg hfull, heq], hgrown⟩
  · have hnext : page.next = -1 := by
      by_contra hne
      exact hends ⟨not_le.1 hlast, hne⟩
    rw [if_neg hlast, if_neg (not_not.2 hnext)]
    by_cases hfull : page.isFull = true
    · obtain ⟨cells', E', hgrown⟩ :=
        (createPage_stored { key := k, pos := v } memory hread hpage hnext).grown hc hrest hE1 hE2
      exact ⟨_, cells', E', by rw [hfull]; rfl, hgrown⟩
    · obtain ⟨isam', heq, hstored⟩ := insertPage_stored { key := k, pos := v } hread hpage hfull
      obtain ⟨cells', E', hgrown⟩ := hstored.grown hc hrest hE1 hE2
      exact ⟨isam', cells', E', by rw [Bool.eq_false_iff.2 hfull, heq]; rfl, hgrown⟩

/-- Along a chain: the pages whose last key is below the new one are passed. -/
theorem insert_chain (memory : Slots κ) : ∀ {cells : List (Int × DataPage κ)} {pos : Int}
    {E : List (Entry κ Int)}, isam.Chain pos cells → cells ≠ [] → (∀ c ∈ cells, PageOk c) →
    List.Forall₂ (IsEntry isam.dupFile) (live cells) E →
    ∃ isam' cells' E',
      LoopReturns (fun _ => isam.insertBody { key := k, pos := v } memory) pos (.ok [v], isam') ∧
      Grown isam pos cells E k v isam' cells' E'
  | [], _, _, _, hne, _, _ => absurd rfl hne
  | (pos', page) :: cells, pos, E, h, _, hok, hE => by
    obtain ⟨rfl, hread, hnext⟩ := Chain.cons_iff.1 h
    rw [live_cons] at hE
    obtain ⟨E1, E2, rfl, hE1, hE2⟩ := Multimap.forall₂_append_left hE
    by_cases hpass : page.last.key < k ∧ page.next ≠ -1
    · obtain ⟨hlt, hne⟩ := hpass
      obtain ⟨isam', cells', E', hret, hgrown⟩ := insert_chain memory hnext
        (mt hnext.eq_nil_iff.1 hne) (fun c hc => hok c (.tail _ hc)) hE2
      refine ⟨isam', _, _, .step (.of_eq fun fuel => ?_) hret,
        hgrown.cons h (hok _ (.head _)) hE1⟩
      have hempty : ¬ page.isEmpty = true := by
        rw [DataPage.isEmpty, decide_eq_true_eq]
        exact Nat.one_le_iff_ne_zero.1 (hok _ (.head _)).1
      rw [insertBody, hread]
      simp only [Option.bind_eq_bind, Option.bind_some, if_neg hempty, if_neg hlt.not_ge,
        if_pos hne]
    · obtain ⟨isam', cells', E', hbody, hgrown⟩ := insertBody_grown memory h hok hE1 hE2 hpass
      exact ⟨isam', cells', E', .done (.of_eq fun _ => hbody), hgrown⟩

/-! ## The index -/

omit [IntCast κ] [LinearOrder κ] in
/-- What the index pages cover depends on their file. -/
theorem Covers.congr (hidx : isam'.idxFile = isam.idxFile) {sep : Nat → κ} : ∀ {level : Nat}
    {pos : Int} {lo : Nat}, isam.Covers sep level pos lo → isam'.Covers sep level pos lo
  | 0, _, _, h => h
  | _ + 1, _, _, ⟨page, c0, c1, c2, hread, hleaf, hkeys, hchildren, h0, h1, h2⟩ =>
    ⟨page, c0, c1, c2, hidx ▸ hread, hleaf, hkeys, hchildren, h0.congr hidx, h1.congr hidx,
      h2.congr hidx⟩

section
variable {P : Partition κ Int 27} {C : Nat → List (Int × DataPage κ)} {q : Nat}
  {E' : List (Entry κ Int)}

/-- The chains of the buckets, no two of which share a page, and what they hold. -/
structure Buckets (isam : ISAM κ) (C : Nat → List (Int × DataPage κ))
    (B : Nat → List (Entry κ Int)) : Prop where
  chain : ∀ q < 27, isam.Chain (dataPageLayout.pos q) (C q)
  disjoint : ∀ q < 27, ∀ r < 27, q ≠ r → ∀ c ∈ C q, ∀ d ∈ C r, c.1 ≠ d.1
  entries : ∀ q < 27, List.Forall₂ (IsEntry isam.dupFile) (live (C q)) (B q)

omit [IntCast κ] [LinearOrder κ] in
/-- One chain changes, the other chains stay what they were. -/
theorem Relinked.buckets {B : Nat → List (Entry κ Int)} (h : isam.Buckets C B) (hq : q < 27)
    (hr : Relinked isam (dataPageLayout.pos q) (C q) isam' cells' E') :
    isam'.Buckets (Function.update C q cells') (Function.update B q E') where
  chain r hrlt := by
    rcases eq_or_ne r q with rfl | hne
    · rw [Function.update_self]
      exact hr.chain
    · rw [Function.update_of_ne hne]
      refine Path.congr (h.chain r hrlt) fun p c hc hread => ?_
      obtain ⟨page, hpage, rfl⟩ := Option.map_eq_some_iff.1 hread
      rw [cellAt, hr.reads p page (fun d hd => ?_) hpage, Option.map_some]
      exact h.disjoint r hrlt q hq hne (p, page) hc d hd
  disjoint := by
    -- a page that came into the chain was no page of the file, so no page of another chain
    have hnew : ∀ r < 27, r ≠ q → ∀ c ∈ cells', ∀ d ∈ C r, c.1 ≠ d.1 := by
      intro r hrlt hne c hc d hd
      rcases hr.fresh c hc with ⟨c', hc', he⟩ | hnone
      · exact he ▸ h.disjoint q hq r hrlt hne.symm c' hc' d hd
      · intro he
        rw [he, (h.chain r hrlt).read hd] at hnone
        cases hnone
    intro r1 hr1 r2 hr2 hne c hc d hd
    rcases eq_or_ne r1 q with rfl | h1
    · rw [Function.update_self] at hc
      rw [Function.update_of_ne hne.symm] at hd
      exact hnew r2 hr2 hne.symm c hc d hd
    · rw [Function.update_of_ne h1] at hc
      rcases eq_or_ne r2 q with rfl | h2
      · rw [Function.update_self] at hd
        exact (hnew r1 hr1 hne d hd c hc).symm
      · rw [Function.update_of_ne h2] at hd
        exact h.disjoint r1 hr1 r2 hr2 hne c hc d hd
  entries r hrlt := by
    rcases eq_or_ne r q with rfl | hne
    · rw [Function.update_self, Function.update_self]
      exact hr.entries
    · rw [Function.update_of_ne hne, Function.update_of_ne hne]
      exact (h.entries r hrlt).imp hr.isEntry

omit [IntCast κ] in
/-- The chain of the bucket of the key grows. -/
theorem WellFormed.grown (h : isam.WellFormed P C) (hq : P.Route (· ≤ k) q)
    (hg : Grown isam (dataPageLayout.pos q) (C q) (P.bucket q) k v isam' cells' E') :
    isam'.WellFormed (P.update hq hg.keys) (Function.update C q cells') := by
  have hbuckets := hg.toRelinked.buckets ⟨h.chain, h.disjoint, h.entries⟩ hq.lt
  exact {
    root := hg.root ▸ h.root.congr hg.idxFile
    leaves := hg.idxFile ▸ h.leaves
    chain := hbuckets.chain
    disjoint := hbuckets.disjoint
    entries := hbuckets.entries
    pages := fun r hr => by
      rcases eq_or_ne r q with rfl | hne
      · rw [Function.update_self]
        exact hg.pages
      · rw [Function.update_of_ne hne]
        exact h.pages r hr }

/-- `__add` of a record: the buckets get its pair. -/
theorem WellFormed.addRecord (h : isam.WellFormed P C) (memory : Slots κ) (k : κ) (v : Int) :
    ∃ isam' P' C', Returns (isam.addRecord memory · { key := k, pos := v }) (.ok [v], isam') ∧
      isam'.WellFormed P' C' ∧ P'.pairs.Perm ((k, v) :: P.pairs) := by
  obtain ⟨q, hdescend, hroute⟩ := h.root.descend_le k
  obtain ⟨isam', cells', E', hloop, hgrown⟩ := insert_chain (k := k) (v := v) memory
    (h.chain q hroute.lt) (h.chain_ne hroute.lt) (h.pages q hroute.lt) (h.entries q hroute.lt)
  refine ⟨isam', _, _, ?_, h.grown hroute hgrown,
    Partition.pairs_update hroute hgrown.keys hgrown.pairs⟩
  refine (hdescend.bind (g := fun fuel dataPos =>
    loop (isam.insertBody { key := k, pos := v } memory) fuel dataPos)
    hloop.returns).congr fun fuel => ?_
  rw [ISAM.addRecord, if_neg h.root.root_ne]
  rfl

end

end

end ISAM

end Rdbms
