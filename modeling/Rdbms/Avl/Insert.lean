import Rdbms.Lib.Loop
import Rdbms.Avl.Rep

/-!
# Insertion keeps the file well formed

A file is well formed (`WellFormed`) when the nodes reached from the root pointer are a balanced
search tree, the list of freed nodes ends, and the two together use every slot of the file once.
`insert` does to the tree what `AvlTree.insert` does. A new key is written to its slot before any
link is changed (`Allocated`); from then on only that slot and the tree's own are written, so that
the list of freed nodes stays as it is.
-/

namespace Rdbms

namespace AVLIndex

/-! ## Well-formed files -/

section
variable {κ : Type} {si si' : AVLIndex κ} {p q : Int} {F : List Int}

/-- The slots of the list of freed nodes that starts at a link. -/
def FreeList (si : AVLIndex κ) : Int → List Int → Prop
  | p, [] => p = -1
  | p, q :: F => p = q ∧ ∃ n, si.read q = some n ∧ FreeList si n.nextDelete F

/-- The slots of the file. -/
def fileSlots (si : AVLIndex κ) : List Int := (List.range si.nodes.length).map avlLayout.pos

/-- A free list stays when its slots are left alone. -/
theorem FreeList.congr : ∀ {F : List Int} {p : Int}, si.FreeList p F →
    (∀ q ∈ F, si'.read q = si.read q) → si'.FreeList p F
  | [], _, h, _ => h
  | q :: _, _, ⟨hp, n, hn, h⟩, hread =>
    ⟨hp, n, (hread q (.head _)).trans hn, h.congr fun q hq => hread q (.tail _ hq)⟩

/-- The slots of a file are all different. -/
theorem nodup_fileSlots : si.fileSlots.Nodup :=
  List.Nodup.map (fun _ _ h => Layout.pos_inj h) List.nodup_range

/-- Files of one length have the same slots. -/
theorem fileSlots_congr (h : si'.nodes.length = si.nodes.length) : si'.fileSlots = si.fileSlots := by
  rw [fileSlots, h, fileSlots]

/-- A file with one more node has one more slot. -/
theorem fileSlots_succ (h : si'.nodes.length = si.nodes.length + 1) :
    si'.fileSlots = si.fileSlots ++ [avlLayout.endPos si.nodes] := by
  rw [fileSlots, h, List.range_succ, List.map_append]
  rfl

/-- A new node at the end of the file. -/
theorem write_endPos (x : AVLIndexNode κ) :
    si.write (avlLayout.endPos si.nodes) x = some { si with nodes := si.nodes ++ [x] } := by
  have hslot : avlLayout.slot? (avlLayout.endPos si.nodes) = some si.nodes.length := Layout.slot?_pos
  simp only [write, hslot, le_refl, if_true, Layout.write_endPos]

end

variable {κ : Type} [KeyType κ] {si si' si1 : AVLIndex κ} {p q s : Int} {n iNode : AVLIndexNode κ}
  {b : Record κ} {t l r : AvlTree Int (Record κ)} {F : List Int}

/-- The file holds the tree `t`, and the list of freed nodes is `F`. -/
structure WellFormed (si : AVLIndex κ) (t : AvlTree Int (Record κ)) (F : List Int) : Prop where
  rep : si.Rep si.header.rootPointer t
  sorted : SortedBy (·.data) t.toList
  balanced : t.Balanced
  free : si.FreeList si.header.lastDelete F
  slots : (t.slots ++ F).Perm si.fileSlots
  root : si.header.rootPointer = if si.nodes = [] then -1 else avlLayout.pos 0
  file : si.fileHeader = si.header

namespace WellFormed

/-- The index that `initIndex` makes. -/
theorem initIndex (pk : Bool) : (initIndex pk : AVLIndex κ).WellFormed .nil [] where
  rep := rfl
  sorted := .nil
  balanced := trivial
  free := rfl
  slots := .refl _
  root := rfl
  file := rfl

/-- No slot is used twice, or used and free. -/
theorem nodup (h : si.WellFormed t F) : (t.slots ++ F).Nodup :=
  h.slots.nodup_iff.2 nodup_fileSlots

/-- The tree is empty when the file is. -/
theorem eq_nil_iff (h : si.WellFormed t F) : t = .nil ↔ si.nodes = [] := by
  rw [← h.rep.eq_neg_one_iff, h.root]
  by_cases hn : si.nodes = []
  · simp [hn]
  · simpa [hn] using Layout.pos_ne_neg_one

/-- An empty file has no freed nodes. -/
theorem free_eq_nil (h : si.WellFormed t F) (hn : si.nodes = []) : F = [] := by
  have hslots := h.slots
  rw [fileSlots, hn] at hslots
  exact (List.append_eq_nil_iff.1 (List.perm_nil.1 hslots)).2

end WellFormed

/-! ## The slot of a new node -/

/-- `insertNode` writes the node to the slot `s`, which leaves the list `F` of freed nodes. -/
structure Allocated (si : AVLIndex κ) (iNode : AVLIndexNode κ) (s : Int) (F : List Int)
    (si1 : AVLIndex κ) : Prop where
  insertNode : si.insertNode iNode = some (s, si1)
  pk : si1.pk = si.pk
  root : si1.header.rootPointer = si.header.rootPointer
  duplicatesFile : si1.duplicatesFile = si.duplicatesFile
  read : si1.read s = some { iNode with currentPos := s }
  reads : ∀ q, q ≠ s → si1.read q = si.read q
  free : si1.FreeList si1.header.lastDelete F
  file : si1.fileHeader = si1.header

/-- The head of the list of freed nodes is used again. -/
theorem WellFormed.allocated_freed (h : si.WellFormed t (s :: F)) (iNode : AVLIndexNode κ) :
    ∃ si1, si.Allocated iNode s F si1 ∧ si1.nodes.length = si.nodes.length := by
  obtain ⟨hs, n, hn, hfree⟩ := h.free
  have hF : s ∉ F := (List.nodup_cons.1 (List.nodup_append.1 h.nodup).2.1).1
  have hn' : (si.writeHeader { si.header with lastDelete := n.nextDelete }).read s = some n := hn
  obtain ⟨si1, hw, hre, hread⟩ := write_of_read hn' { iNode with currentPos := s }
  have hreads : ∀ q, q ≠ s → si1.read q = si.read q := fun q hq => hre.reads q (by simpa using hq)
  refine ⟨si1, ⟨?_, hre.pk, by rw [hre.header]; rfl, hre.duplicatesFile, hread, hreads, ?_, ?_⟩,
    hre.length⟩
  · rw [AVLIndex.insertNode, allocate, if_pos (by rw [hs]; exact ne_neg_one_of_read hn), hs]
    simp only [Option.bind_eq_bind, hn, Option.bind_some, hw]
  · rw [hre.header]
    exact hfree.congr fun q hq => hreads q fun e => hF (e ▸ hq)
  · rw [hre.header, hre.fileHeader]
    rfl

/-- Without freed nodes the file grows. -/
theorem WellFormed.allocated_new (h : si.WellFormed t []) (iNode : AVLIndexNode κ) :
    ∃ si1, si.Allocated iNode (avlLayout.endPos si.nodes) [] si1 ∧
      si1.nodes.length = si.nodes.length + 1 := by
  have hlast : si.header.lastDelete = -1 := h.free
  refine ⟨{ si with nodes := si.nodes ++ [{ iNode with currentPos := avlLayout.endPos si.nodes }] },
    ⟨?_, rfl, rfl, rfl, Layout.read_endPos_append, fun q hq => ?_, hlast, h.file⟩, by simp⟩
  · rw [AVLIndex.insertNode, allocate, if_neg (by simp [hlast])]
    simp only [Option.bind_eq_bind, Option.bind_some, write_endPos]
  · exact Layout.read_append_singleton.trans (if_neg hq)

/-- A new node gets the head of the list of freed nodes, or else the end of the file. -/
theorem WellFormed.exists_allocated (h : si.WellFormed t F) (iNode : AVLIndexNode κ) :
    ∃ s si1, si.Allocated iNode s F.tail si1 ∧ (s :: (t.slots ++ F.tail)).Perm si1.fileSlots ∧
      (F ≠ [] → F = s :: F.tail) ∧
      si1.nodes.length = si.nodes.length + (if F = [] then 1 else 0) := by
  cases F with
  | nil =>
    obtain ⟨si1, hal, hlen⟩ := h.allocated_new iNode
    refine ⟨_, si1, hal, ?_, by simp, by simpa using hlen⟩
    rw [fileSlots_succ hlen]
    exact (List.perm_append_singleton _ _).symm.trans (h.slots.append_right _)
  | cons s F =>
    obtain ⟨si1, hal, hlen⟩ := h.allocated_freed iNode
    refine ⟨s, si1, hal, ?_, by simp, by simpa using hlen⟩
    rw [fileSlots_congr hlen]
    exact List.perm_middle.symm.trans h.slots

/-! ## The way down -/

/-- The insertion goes into the right subtree. -/
theorem insert_right {res : Outcome (AVLIndex κ) Unit} {res' : Outcome (AVLIndex κ) Unit}
    (hn : si.read p = some n) (hlt : n.data < iNode.data) (hr : n.rightChildren ≠ -1)
    (h : Returns (insert · si n.rightChildren iNode) res) (hend : insertEnd p res = some res') :
    Returns (insert · si p iNode) res' := by
  refine .of_succ ((h.bind (g := fun _ => insertEnd p) (.of_eq fun _ => hend)).congr fun fuel => ?_)
  rw [insert, if_neg (ne_neg_one_of_read hn), hn]
  simp only [Option.bind_eq_bind, Option.bind_some, if_pos hlt, if_pos hr]

/-- The insertion goes into the left subtree. -/
theorem insert_left {res : Outcome (AVLIndex κ) Unit} {res' : Outcome (AVLIndex κ) Unit}
    (hn : si.read p = some n) (hlt : iNode.data < n.data) (hl : n.leftChildren ≠ -1)
    (h : Returns (insert · si n.leftChildren iNode) res) (hend : insertEnd p res = some res') :
    Returns (insert · si p iNode) res' := by
  refine .of_succ ((h.bind (g := fun _ => insertEnd p) (.of_eq fun _ => hend)).congr fun fuel => ?_)
  rw [insert, if_neg (ne_neg_one_of_read hn), hn]
  simp only [Option.bind_eq_bind, Option.bind_some, if_neg hlt.not_gt, if_pos hlt, if_pos hl]

/-- The new node becomes the right child. -/
theorem insert_rightChild {si2 : AVLIndex κ} {res : Outcome (AVLIndex κ) Unit}
    (hn : si.read p = some n) (hlt : n.data < iNode.data) (hr : n.rightChildren = -1)
    (hins : si.insertNode iNode = some (s, si1))
    (hw : si1.write p { n with rightChildren := s, currentPos := p } = some si2)
    (hend : insertEnd p (.ok (), si2) = some res) : Returns (insert · si p iNode) res := by
  refine .of_succ (.of_eq fun fuel => ?_)
  rw [insert, if_neg (ne_neg_one_of_read hn), hn]
  simp only [Option.bind_eq_bind, Option.bind_some, if_pos hlt, hr, ne_eq, not_true_eq_false,
    if_false, hins, hw, hend]

/-- The new node becomes the left child. -/
theorem insert_leftChild {si2 : AVLIndex κ} {res : Outcome (AVLIndex κ) Unit}
    (hn : si.read p = some n) (hlt : iNode.data < n.data) (hl : n.leftChildren = -1)
    (hins : si.insertNode iNode = some (s, si1))
    (hw : si1.write p { n with leftChildren := s, currentPos := p } = some si2)
    (hend : insertEnd p (.ok (), si2) = some res) : Returns (insert · si p iNode) res := by
  refine .of_succ (.of_eq fun fuel => ?_)
  rw [insert, if_neg (ne_neg_one_of_read hn), hn]
  simp only [Option.bind_eq_bind, Option.bind_some, if_neg hlt.not_gt, if_pos hlt, hl, ne_eq,
    not_true_eq_false, if_false, hins, hw, hend]

omit [KeyType κ] in
/-- A node whose subtrees have been worked on is put right. -/
theorem Stale.insertEnd {S T : List Int} {si2 : AVLIndex κ} (h : si2.Stale p l b r)
    (hre : Rewrites S si1 si2) (hS : S ⊆ T) (hperm : (p :: (l.slots ++ r.slots)).Perm T)
    (hnd : T.Nodup) :
    ∃ si', insertEnd p (.ok (), si2) = some (.ok (), si') ∧ Rewrites T si1 si' ∧
      si'.Rep p (AvlTree.rebalance p l b r) := by
  obtain ⟨si', hup, hre', hrep⟩ := h.updateBalance (hperm.nodup_iff.2 hnd)
  exact ⟨si', by rw [AVLIndex.insertEnd, hup, Option.map_some], hre.trans hre' hS hperm.subset, hrep⟩

omit [KeyType κ] in
/-- The new node is a leaf. -/
theorem Allocated.leaf (hal : si.Allocated iNode s F si1)
    (hi : iNode.leftChildren = -1 ∧ iNode.rightChildren = -1 ∧ iNode.height = 0) :
    si1.Rep s (.node s .nil iNode.toRecord .nil) :=
  ⟨rfl, _, hal.read, rfl, rfl, hi.2.2, hi.1, hi.2.1⟩

/-- A new key in a tree that is not empty. -/
theorem insert_new (f : Record κ → Record κ) (hal : si.Allocated iNode s F si1)
    (hi : iNode.leftChildren = -1 ∧ iNode.rightChildren = -1 ∧ iNode.height = 0) :
    ∀ {t : AvlTree Int (Record κ)} {p : Int}, si.Rep p t → t ≠ .nil → (s :: t.slots).Nodup →
      (∀ y ∈ t.toList, y.data ≠ iNode.data) →
      ∃ si', Returns (insert · si p iNode) (.ok (), si') ∧ Rewrites (s :: t.slots) si1 si' ∧
        si'.Rep p (t.insert (·.data) s iNode.toRecord f)
  | .nil, _, _, hne, _, _ => absurd rfl hne
  | .node u l b r, p, h, _, hnd, hnew => by
    have hs : s ∉ (AvlTree.node u l b r).slots := (List.nodup_cons.1 hnd).1
    have hreads : ∀ q ∈ (AvlTree.node u l b r).slots, si1.read q = si.read q :=
      fun q hq => hal.reads q fun e => hs (e ▸ hq)
    obtain ⟨rfl, n, hn1, rfl, -, -, hl1, hr1⟩ := h.congr hreads
    have hn : si.read p = some n := (hreads p (by simp)).symm.trans hn1
    obtain ⟨-, n', hn', -, -, -, hl, hr⟩ := h
    obtain rfl : n = n' := Option.some.inj (hn.symm.trans hn')
    have hsubl : (s :: l.slots).Sublist (s :: p :: (l.slots ++ r.slots)) :=
      ((List.sublist_append_left ..).cons p).cons_cons s
    have hsubr : (s :: r.slots).Sublist (s :: p :: (l.slots ++ r.slots)) :=
      ((List.sublist_append_right ..).cons p).cons_cons s
    have hlr := (List.nodup_append.1 (List.nodup_cons.1 (List.nodup_cons.1 hnd).2).2).2.2
    have hnot := hnd
    simp only [AvlTree.slots_node, List.nodup_cons, List.mem_cons, List.mem_append, not_or] at hnot
    obtain ⟨⟨hsp, hsl, hsr⟩, ⟨hpl, hpr⟩, -⟩ := hnot
    have hnewl : ∀ y ∈ l.toList, y.data ≠ iNode.data := fun y hy => hnew y (by simp [hy])
    have hnewr : ∀ y ∈ r.toList, y.data ≠ iNode.data := fun y hy => hnew y (by simp [hy])
    rcases lt_or_gt_of_ne (hnew n.toRecord (by simp)) with hlt | hgt
    · rw [AvlTree.insert, if_pos hlt]
      have hperm : (p :: (l.slots ++ (r.insert (·.data) s iNode.toRecord f).slots)).Perm
          (s :: p :: (l.slots ++ r.slots)) :=
        .trans (.cons _ (((AvlTree.slots_insert_new hnewr).append_left _).trans
          List.perm_middle)) (.swap ..)
      by_cases hnil : r = .nil
      · subst hnil
        obtain ⟨si2, hw, hre, hread⟩ := write_of_read hn1
          { n with rightChildren := s, currentPos := p }
        have hstale : si2.Stale p l n.toRecord (.node s .nil iNode.toRecord .nil) :=
          ⟨_, hread, rfl, hl1.rewrites hre fun q hq hc => hpl (List.mem_singleton.1 hc ▸ hq),
            (hal.leaf hi).rewrites hre (by simpa using hsp)⟩
        obtain ⟨si', hend, hre', hrep⟩ := hstale.insertEnd hre (by simp) hperm hnd
        exact ⟨si', insert_rightChild hn hlt hr hal.insertNode hw hend, hre', hrep⟩
      · obtain ⟨si2, hret, hre, hrep⟩ := insert_new f hal hi hr hnil (hnd.sublist hsubr) hnewr
        have hstale := stale_of_right hn1 hl1 hre (by simp [Ne.symm hsp, hpr])
          (fun q hq hc => (List.mem_cons.1 hc).elim (fun e => hsl (e ▸ hq))
            fun hc => hlr q hq q hc rfl) hrep
        obtain ⟨si', hend, hre', hrep'⟩ := hstale.insertEnd hre hsubr.subset hperm hnd
        exact ⟨si', insert_right hn hlt (mt hr.eq_neg_one_iff.1 hnil) hret hend, hre', hrep'⟩
    · rw [AvlTree.insert, if_neg hgt.not_gt, if_pos hgt]
      have hperm : (p :: ((l.insert (·.data) s iNode.toRecord f).slots ++ r.slots)).Perm
          (s :: p :: (l.slots ++ r.slots)) :=
        .trans (.cons _ ((AvlTree.slots_insert_new hnewl).append_right _)) (.swap ..)
      by_cases hnil : l = .nil
      · subst hnil
        obtain ⟨si2, hw, hre, hread⟩ := write_of_read hn1
          { n with leftChildren := s, currentPos := p }
        have hstale : si2.Stale p (.node s .nil iNode.toRecord .nil) n.toRecord r :=
          ⟨_, hread, rfl, (hal.leaf hi).rewrites hre (by simpa using hsp),
            hr1.rewrites hre fun q hq hc => hpr (List.mem_singleton.1 hc ▸ hq)⟩
        obtain ⟨si', hend, hre', hrep⟩ := hstale.insertEnd hre (by simp) hperm hnd
        exact ⟨si', insert_leftChild hn hgt hl hal.insertNode hw hend, hre', hrep⟩
      · obtain ⟨si2, hret, hre, hrep⟩ := insert_new f hal hi hl hnil (hnd.sublist hsubl) hnewl
        have hstale := stale_of_left hn1 hr1 hre (by simp [Ne.symm hsp, hpl])
          (fun q hq hc => (List.mem_cons.1 hc).elim (fun e => hsr (e ▸ hq))
            fun hc => hlr q hc q hq rfl) hrep
        obtain ⟨si', hend, hre', hrep'⟩ := hstale.insertEnd hre hsubl.subset hperm hnd
        exact ⟨si', insert_left hn hgt (mt hl.eq_neg_one_iff.1 hnil) hret hend, hre', hrep'⟩

/-! ## A key that occurs -/

/-- The index after a duplicate of the record `y` has been appended to the duplicates file. -/
def withDuplicate (si : AVLIndex κ) (y : Record κ) (iNode : AVLIndexNode κ) : AVLIndex κ :=
  { si with duplicatesFile := si.duplicatesFile ++ [{ iNode with dupPos := y.dupPos }] }

/-- The record whose chain starts with the next duplicate. -/
def pointDuplicate (si : AVLIndex κ) (y : Record κ) : Record κ :=
  { y with dupPos := avlDuplicatesLayout.endPos si.duplicatesFile }

omit [KeyType κ] in
/-- `insertDuplicate` appends the record to the duplicates, and has the node point to it. -/
theorem insertDuplicate_eq : si.insertDuplicate n iNode =
    (si.withDuplicate n.toRecord iNode).write n.currentPos
      { n with toRecord := si.pointDuplicate n.toRecord } := rfl

/-- A duplicate changes the node of its key. -/
theorem insert_here (hn : si.read p = some n) (heq : n.data = iNode.data) (hpk : si.pk = false)
    (hpos : n.currentPos = p) :
    ∃ si', Returns (insert · si p iNode) (.ok (), si') ∧
      Rewrites [p] (si.withDuplicate n.toRecord iNode) si' ∧
      si'.read p = some { n with toRecord := si.pointDuplicate n.toRecord } := by
  subst hpos
  have hn' : (si.withDuplicate n.toRecord iNode).read n.currentPos = some n := hn
  obtain ⟨si', hw, hre, hread⟩ :=
    write_of_read hn' { n with toRecord := si.pointDuplicate n.toRecord }
  refine ⟨si', .of_succ (.of_eq fun fuel => ?_), hre, hread⟩
  rw [insert, if_neg (ne_neg_one_of_read hn), hn]
  simp only [Option.bind_eq_bind, Option.bind_some, heq.not_lt, heq.not_gt, if_false, hpk,
    Bool.false_eq_true]
  rw [insertDuplicate_eq, hw, Option.map_some]

/-- A key that occurs in the tree. -/
theorem insert_mem (iNode : AVLIndexNode κ) (s : Int) (hpk : si.pk = false) :
    ∀ {t : AvlTree Int (Record κ)} {p : Int} {y : Record κ}, si.Rep p t → t.slots.Nodup →
      SortedBy (·.data) t.toList → y ∈ t.toList → y.data = iNode.data →
      ∃ si', Returns (insert · si p iNode) (.ok (), si') ∧
        Rewrites t.slots (si.withDuplicate y iNode) si' ∧
        si'.Rep p (t.insert (·.data) s iNode.toRecord si.pointDuplicate)
  | .nil, _, _, _, _, _, hy, _ => nomatch hy
  | .node u l b r, p, y, ⟨hpu, n, hn, hb, hpos, hheight, hl, hr⟩, hnd, hsorted, hy, hkey => by
    subst hpu hb
    obtain ⟨hsl, hsr, hlb, hbr⟩ := AvlTree.sorted_node.1 hsorted
    have hnd' := hnd
    simp only [AvlTree.slots_node, List.nodup_cons, List.mem_append, not_or] at hnd'
    obtain ⟨⟨hpl, hpr⟩, hlr⟩ := hnd'
    obtain ⟨hndl, hndr, hdisj⟩ := List.nodup_append.1 hlr
    rw [AvlTree.toList_node, List.mem_append, List.mem_cons] at hy
    rcases hy with hy | rfl | hy
    · have hgt : iNode.data < n.data := hkey ▸ hlb y hy
      rw [AvlTree.insert, if_neg hgt.not_gt, if_pos hgt]
      have hnil : l ≠ .nil := fun e => by subst e; cases hy
      obtain ⟨si2, hret, hre, hrep⟩ := insert_mem iNode s hpk hl hndl hsl hy hkey
      have hn' : (si.withDuplicate y iNode).read p = some n := hn
      have hstale := stale_of_left hn' (hr.congr fun _ _ => rfl)
        hre hpl (fun q hq hc => hdisj q hc q hq rfl) hrep
      obtain ⟨si', hend, hre', hrep'⟩ := hstale.insertEnd hre (by simp)
        ((AvlTree.slots_insert_mem hsl ⟨y, hy, hkey⟩).append_right _ |>.cons _) hnd
      exact ⟨si', insert_left hn hgt (mt hl.eq_neg_one_iff.1 hnil) hret hend, hre', hrep'⟩
    · have hkey' : n.data = iNode.data := hkey
      rw [AvlTree.insert, if_neg hkey'.not_lt, if_neg hkey'.not_gt]
      obtain ⟨si', hret, hre, hread⟩ := insert_here hn hkey hpk hpos
      refine ⟨si', hret, hre.mono (by simp), rfl, _, hread, rfl, hpos, hheight, ?_, ?_⟩
      · exact hl.congr fun q hq => hre.reads q fun hc => hpl (List.mem_singleton.1 hc ▸ hq)
      · exact hr.congr fun q hq => hre.reads q fun hc => hpr (List.mem_singleton.1 hc ▸ hq)
    · have hlt : n.data < iNode.data := hkey ▸ hbr y hy
      rw [AvlTree.insert, if_pos hlt]
      have hnil : r ≠ .nil := fun e => by subst e; cases hy
      obtain ⟨si2, hret, hre, hrep⟩ := insert_mem iNode s hpk hr hndr hsr hy hkey
      have hn' : (si.withDuplicate y iNode).read p = some n := hn
      have hstale := stale_of_right hn' (hl.congr fun _ _ => rfl)
        hre hpr (fun q hq hc => hdisj q hq q hc rfl) hrep
      obtain ⟨si', hend, hre', hrep'⟩ := hstale.insertEnd hre (by simp)
        ((AvlTree.slots_insert_mem hsr ⟨y, hy, hkey⟩).append_left _ |>.cons _) hnd
      exact ⟨si', insert_right hn hlt (mt hr.eq_neg_one_iff.1 hnil) hret hend, hre', hrep'⟩

/-- A key that occurs is refused when it is a primary key. -/
theorem insert_refused (iNode : AVLIndexNode κ) (hpk : si.pk = true) :
    ∀ {t : AvlTree Int (Record κ)} {p : Int} {y : Record κ}, si.Rep p t →
      SortedBy (·.data) t.toList → y ∈ t.toList → y.data = iNode.data →
      Returns (insert · si p iNode) (.error (.runtimeError "Couldn't add duplicate in PK"), si)
  | .nil, _, _, _, _, hy, _ => nomatch hy
  | .node u l b r, p, y, ⟨hpu, n, hn, hb, _, _, hl, hr⟩, hsorted, hy, hkey => by
    subst hpu hb
    obtain ⟨hsl, hsr, hlb, hbr⟩ := AvlTree.sorted_node.1 hsorted
    rw [AvlTree.toList_node, List.mem_append, List.mem_cons] at hy
    rcases hy with hy | rfl | hy
    · have hgt : iNode.data < n.data := hkey ▸ hlb y hy
      have hnil : l ≠ .nil := fun e => by subst e; cases hy
      exact insert_left hn hgt (mt hl.eq_neg_one_iff.1 hnil) (insert_refused iNode hpk hl hsl hy hkey)
        rfl
    · have hkey' : n.data = iNode.data := hkey
      refine .of_succ (.of_eq fun fuel => ?_)
      rw [insert, if_neg (ne_neg_one_of_read hn), hn]
      simp only [Option.bind_eq_bind, Option.bind_some, hkey'.not_lt, hkey'.not_gt, if_false, hpk,
        if_true]
    · have hlt : n.data < iNode.data := hkey ▸ hbr y hy
      have hnil : r ≠ .nil := fun e => by subst e; cases hy
      exact insert_right hn hlt (mt hr.eq_neg_one_iff.1 hnil) (insert_refused iNode hpk hr hsr hy hkey)
        rfl

/-! ## `add` -/

/-- What `add` does to a well-formed file. -/
structure Added (si : AVLIndex κ) (t : AvlTree Int (Record κ)) (F : List Int) (data : κ)
    (rawPos : Int) (si' : AVLIndex κ) (t' : AvlTree Int (Record κ)) (F' : List Int) : Prop where
  wellFormed : si'.WellFormed t' F'
  pk : si'.pk = si.pk
  toList : t'.toList = insertSorted (·.data) { data, rawPos } si.pointDuplicate t.toList
  old : (∃ y ∈ t.toList, y.data = data) → F' = F ∧ si'.nodes.length = si.nodes.length
  new : (∀ y ∈ t.toList, y.data ≠ data) → F' = F.tail ∧ (∀ s, F.head? = some s → s ∈ t'.slots) ∧
    si'.nodes.length = si.nodes.length + (if F = [] then 1 else 0)

/-- `add` reports the position when `insert` succeeds. -/
theorem add_returns {data : κ} {rawPos : Int}
    (h : Returns (insert · si si.header.rootPointer { data, rawPos }) (.ok (), si')) :
    Returns (si.add · data rawPos) (.ok [rawPos], si') := h.map _

/-- The first key of an empty file. -/
theorem WellFormed.add_empty (h : si.WellFormed .nil F) (data : κ) (rawPos : Int) :
    ∃ si' t' F', Returns (si.add · data rawPos) (.ok [rawPos], si') ∧
      si.Added .nil F data rawPos si' t' F' := by
  have hn : si.nodes = [] := h.eq_nil_iff.1 rfl
  obtain rfl := h.free_eq_nil hn
  let si' := ({ si with nodes := [{ data, rawPos, currentPos := 32 }] } : AVLIndex κ).writeHeader
    { si.header with rootPointer := 32 }
  have hadd : Returns (si.add · data rawPos) (.ok [rawPos], si') := by
    refine .of_succ (.of_eq fun fuel => ?_)
    have hroot : si.header.rootPointer = -1 := by rw [h.root, if_pos hn]
    have hend : (32 : Int) = avlLayout.endPos si.nodes := by rw [hn]; rfl
    rw [AVLIndex.add, insert, if_pos hroot, insertRoot, hend, write_endPos, hn]
    rfl
  refine ⟨si', .node 32 .nil { data, rawPos } .nil, [], hadd, ?_⟩
  refine ⟨⟨⟨rfl, _, rfl, rfl, rfl, rfl, rfl, rfl⟩, List.pairwise_singleton .., ?_, h.free, ?_, rfl,
    rfl⟩, rfl, rfl, ?_, ?_⟩
  · exact ⟨by simp, by simp, trivial, trivial⟩
  · exact .refl _
  · simp
  · simp [si', writeHeader, hn]

/-- The tree after an insertion is a balanced search tree again, under the same root. -/
theorem WellFormed.of_insert {F' : List Int} {data : κ} {rawPos : Int} (h : si.WellFormed t F)
    (hnil : t ≠ .nil)
    (hrep : si'.Rep si.header.rootPointer
      (t.insert (·.data) s { data, rawPos } si.pointDuplicate))
    (hfree : si'.FreeList si'.header.lastDelete F')
    (hslots : ((t.insert (·.data) s { data, rawPos } si.pointDuplicate).slots ++ F').Perm
      si'.fileSlots)
    (hroot : si'.header.rootPointer = si.header.rootPointer) (hfile : si'.fileHeader = si'.header)
    (hlen : si.nodes.length ≤ si'.nodes.length) :
    si'.WellFormed (t.insert (·.data) s { data, rawPos } si.pointDuplicate) F' where
  rep := by rw [hroot]; exact hrep
  sorted := by
    rw [AvlTree.toList_insert h.sorted]
    exact sorted_insertSorted h.sorted fun _ => rfl
  balanced := (AvlTree.insert_balanced h.balanced).1
  free := hfree
  slots := hslots
  root := by
    have hne : si.nodes ≠ [] := mt h.eq_nil_iff.2 hnil
    have hpos := List.length_pos_iff.2 hne
    rw [hroot, h.root, if_neg hne, if_neg (List.length_pos_iff.1 (by omega))]
  file := hfile

/-- A new key in a file that is not empty. -/
theorem WellFormed.add_new (h : si.WellFormed t F) (hnil : t ≠ .nil) {data : κ}
    (hnew : ∀ y ∈ t.toList, y.data ≠ data) (rawPos : Int) :
    ∃ si' t' F', Returns (si.add · data rawPos) (.ok [rawPos], si') ∧
      si.Added t F data rawPos si' t' F' := by
  obtain ⟨s, si1, hal, hperm, hhead, hlen⟩ := h.exists_allocated { data, rawPos }
  have hnd : ((s :: t.slots) ++ F.tail).Nodup := hperm.nodup_iff.2 nodup_fileSlots
  obtain ⟨hndt, -, hdisj⟩ := List.nodup_append.1 hnd
  obtain ⟨si', hret, hre, hrep⟩ := insert_new si.pointDuplicate hal ⟨rfl, rfl, rfl⟩ h.rep hnil
    hndt hnew
  have hslots : (t.insert (·.data) s { data, rawPos } si.pointDuplicate).slots.Perm (s :: t.slots) :=
    AvlTree.slots_insert_new hnew
  have hlen' : si'.nodes.length = si.nodes.length + (if F = [] then 1 else 0) :=
    hre.length.trans hlen
  refine ⟨si', t.insert (·.data) s { data, rawPos } si.pointDuplicate, F.tail,
    add_returns hret, h.of_insert hnil hrep ?_ ?_ ?_ ?_ (by omega),
    hre.pk.trans hal.pk, AvlTree.toList_insert h.sorted, ?_, fun _ => ⟨rfl, ?_, hlen'⟩⟩
  · rw [hre.header]
    exact hal.free.congr fun q hq => hre.reads q fun hc => hdisj q hc q hq rfl
  · rw [fileSlots_congr hre.length]
    exact (hslots.append_right _).trans hperm
  · rw [hre.header, hal.root]
  · rw [hre.fileHeader, hre.header, hal.file]
  · rintro ⟨y, hy, hkey⟩
    exact absurd hkey (hnew y hy)
  · intro q hq
    rw [hhead (fun e => by rw [e] at hq; cases hq)] at hq
    cases hq
    exact hslots.mem_iff.2 (.head _)

/-- A key that occurs. -/
theorem WellFormed.add_mem (h : si.WellFormed t F) (hpk : si.pk = false) {y : Record κ}
    (hy : y ∈ t.toList) (rawPos : Int) :
    ∃ si' t' F', Returns (si.add · y.data rawPos) (.ok [rawPos], si') ∧
      si.Added t F y.data rawPos si' t' F' := by
  have hnil : t ≠ .nil := fun e => by subst e; cases hy
  obtain ⟨hndt, -, hdisj⟩ := List.nodup_append.1 h.nodup
  obtain ⟨si', hret, hre, hrep⟩ := insert_mem { data := y.data, rawPos } 0 hpk h.rep hndt
    h.sorted hy rfl
  have hslots : (t.insert (·.data) 0 { data := y.data, rawPos } si.pointDuplicate).slots.Perm
      t.slots := AvlTree.slots_insert_mem h.sorted ⟨y, hy, rfl⟩
  refine ⟨si', t.insert (·.data) 0 { data := y.data, rawPos } si.pointDuplicate, F,
    add_returns hret, h.of_insert hnil hrep ?_ ?_ (by rw [hre.header]; rfl) ?_ hre.length.ge, hre.pk,
    AvlTree.toList_insert h.sorted, fun _ => ⟨rfl, hre.length⟩, fun hnew => absurd rfl (hnew y hy)⟩
  · rw [hre.header]
    exact h.free.congr fun q hq => hre.reads q fun hc => hdisj q hc q hq rfl
  · rw [fileSlots_congr (show si'.nodes.length = si.nodes.length from hre.length)]
    exact (hslots.append_right _).trans h.slots
  · rw [hre.fileHeader, hre.header]
    exact h.file

/-- `add` comes back on well-formed files and keeps them well formed. -/
theorem WellFormed.add (h : si.WellFormed t F) (hpk : si.pk = false) (data : κ) (rawPos : Int) :
    ∃ si' t' F', Returns (si.add · data rawPos) (.ok [rawPos], si') ∧
      si.Added t F data rawPos si' t' F' := by
  by_cases hy : ∃ y ∈ t.toList, y.data = data
  · obtain ⟨y, hy, rfl⟩ := hy
    exact h.add_mem hpk hy rawPos
  by_cases hnil : t = .nil
  · subst hnil
    exact h.add_empty data rawPos
  · exact h.add_new hnil (fun y hy' hkey => hy ⟨y, hy', hkey⟩) rawPos

/-- An index as `initIndex` makes it is well formed, and `add` keeps a file well formed: the key is
added to the keys, the records of the other keys stay, and the head of the list of freed nodes is
used when, and only when, the key is new and there is one. -/
theorem add_wellFormed : (∀ pk, (AVLIndex.initIndex pk : AVLIndex κ).WellFormed .nil []) ∧
    ∀ (si : AVLIndex κ) t F, si.WellFormed t F → si.pk = false → ∀ (data : κ) (rawPos : Int),
      ∃ si' t' F', Returns (si.add · data rawPos) (.ok [rawPos], si') ∧ si'.WellFormed t' F' ∧
        (∀ k, k ∈ t'.toList.map (·.data) ↔ k = data ∨ k ∈ t.toList.map (·.data)) ∧
        (∀ r : Record κ, r.data ≠ data → (r ∈ t'.toList ↔ r ∈ t.toList)) ∧
        ((∃ s, F = s :: F' ∧ s ∈ t'.slots) ↔ data ∉ t.toList.map (·.data) ∧ F ≠ []) ∧
        (data ∈ t.toList.map (·.data) ∨ F = [] → F' = F) := by
  refine ⟨WellFormed.initIndex, fun si t F h hpk data rawPos => ?_⟩
  obtain ⟨si', t', F', hret, hadd⟩ := h.add hpk data rawPos
  refine ⟨si', t', F', hret, hadd.wellFormed, ?_, ?_, ?_, ?_⟩
  · intro k
    rw [hadd.toList]
    exact mem_keys_insertSorted (a := { data, rawPos }) (f := si.pointDuplicate) h.sorted
      fun _ => rfl
  · intro r hr
    rw [hadd.toList]
    exact mem_insertSorted_of_ne h.sorted (fun _ => rfl) hr
  · refine ⟨?_, fun ⟨hnew, hF⟩ => ?_⟩
    · rintro ⟨s, hF, -⟩
      refine ⟨fun hmem => ?_, by simp [hF]⟩
      have hlen := congrArg List.length (hadd.old (List.mem_map.1 hmem)).1
      rw [hF, List.length_cons] at hlen
      omega
    · obtain ⟨s, F1, rfl⟩ := List.exists_cons_of_ne_nil hF
      obtain ⟨rfl, hs, -⟩ := hadd.new fun y hy hkey => hnew (List.mem_map.2 ⟨y, hy, hkey⟩)
      exact ⟨s, rfl, hs s rfl⟩
  · rintro (hmem | rfl)
    · exact (hadd.old (List.mem_map.1 hmem)).1
    · by_cases hmem : ∃ y ∈ t.toList, y.data = data
      · exact (hadd.old hmem).1
      · exact (hadd.new fun y hy hkey => hmem ⟨y, hy, hkey⟩).1

/-- A leaf and a freed node. -/
def sampleIndex : AVLIndex Int where
  pk := false
  header := ⟨32, 152⟩
  fileHeader := ⟨32, 152⟩
  nodes := [{ data := 5, rawPos := 50, currentPos := 32 }, { data := 7, nextDelete := -1 }]
  duplicatesFile := []

/-- The tree in its files. -/
def sampleTree : AvlTree Int (Record Int) := .node 32 .nil { data := 5, rawPos := 50 } .nil

/-- Its files hold the tree and one free slot. -/
theorem sampleIndex_wellFormed : sampleIndex.WellFormed sampleTree [152] where
  rep := ⟨rfl, _, rfl, rfl, rfl, rfl, rfl, rfl⟩
  sorted := List.pairwise_singleton ..
  balanced := ⟨by decide, by decide, trivial, trivial⟩
  free := ⟨rfl, _, rfl, rfl⟩
  slots := by decide
  root := rfl
  file := rfl

/-- A new key takes the free slot. -/
theorem add_wellFormed_sample : sampleIndex.WellFormed sampleTree [152] ∧
    ∃ si' t' F', Returns (sampleIndex.add · 6 60) (.ok [60], si') ∧ si'.WellFormed t' F' ∧
      6 ∈ t'.toList.map (·.data) ∧ 5 ∈ t'.toList.map (·.data) ∧ ∃ s, [152] = s :: F' := by
  obtain ⟨si', t', F', hret, hwf, hkeys, -, hhead, -⟩ :=
    add_wellFormed.2 _ _ _ sampleIndex_wellFormed rfl 6 60
  obtain ⟨s, hs, -⟩ := hhead.2 ⟨by decide, by decide⟩
  exact ⟨sampleIndex_wellFormed, si', t', F', hret, hwf, (hkeys 6).2 (.inl rfl),
    (hkeys 5).2 (.inr (by decide)), s, hs⟩

end AVLIndex

end Rdbms
