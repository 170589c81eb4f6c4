import Rdbms.Lib.AvlErase
import Rdbms.Avl.Insert

/-!
# Deletion keeps the file well formed

`erase` of a key whose node has at most one child links the node's parent to the child, puts the
node in front of the list of freed nodes and the nodes on the way back in balance: the tree is
`AvlTree.erase` of the old one (`Cut`). For a node with two children it starts once more from the
root to take out the predecessor, and then copies the predecessor's record to where the key is
found from the node's slot on; what follows on the way back finds every node in balance.

The root is nobody's child. When it has at most one child the root pointer stays at its slot, so
that the results are about keys that are not at such a root.
-/

namespace Rdbms

namespace AVLIndex
variable {κ : Type} {si si' : AVLIndex κ} {c p q x : Int} {n pn d : AVLIndexNode κ}
  {b : Record κ} {t t' l r : AvlTree Int (Record κ)} {F : List Int} {k : κ}

/-- The header with `x` at the front of the list of freed nodes. -/
def freeHead (si : AVLIndex κ) (x : Int) : AVLIndex κ :=
  si.writeHeader { si.header with lastDelete := x }

/-- The link of a parent goes from the child `c` to `q`. -/
def relink (n : AVLIndexNode κ) (c q : Int) : AVLIndexNode κ :=
  if n.leftChildren = c then { n with leftChildren := q }
  else if n.rightChildren = c then { n with rightChildren := q }
  else n

/-- From `si` to `si'` the tree `t` has become the tree `t'` at `q`. The slot `x`, which had the key
`k`, is free now, and only the slots `S` have been written. -/
structure Cut (si : AVLIndex κ) (S : List Int) (t : AvlTree Int (Record κ)) (k : κ)
    (t' : AvlTree Int (Record κ)) (x q : Int) (si' : AVLIndex κ) : Prop where
  key : ∀ n, si.read x = some n → n.data = k
  rewrites : Rewrites S (si.freeHead x) si'
  rep : si'.Rep q t'
  slots : (x :: t'.slots).Perm t.slots
  freed : ∃ n, si'.read x = some n ∧ n.nextDelete = si.header.lastDelete

/-- A link that is set to the child it has. -/
theorem relink_self : relink n c c = n := by
  unfold relink
  split_ifs with h1 h2
  · rw [← h1]
  · rw [← h2]
  · rfl

/-- A new link leaves the position of the node alone. -/
theorem relink_currentPos : (relink n c q).currentPos = n.currentPos := by
  unfold relink
  split_ifs <;> rfl

/-- The left link is the one that is set when it leads to the child. -/
theorem relink_left (h : n.leftChildren = c) : relink n c q = { n with leftChildren := q } :=
  if_pos h

/-- Otherwise it is the right one. -/
theorem relink_right (hl : n.leftChildren ≠ c) (hr : n.rightChildren = c) :
    relink n c q = { n with rightChildren := q } := by
  rw [relink, if_neg hl, if_pos hr]

/-- A position that is set to what it was. -/
theorem setCurrentPos_self (h : n.currentPos = p) : { n with currentPos := p } = n := by
  subst h
  rfl

/-- The head of the free list is no part of a tree. -/
theorem Rep.freeHead (h : si.Rep p t) (x : Int) : (si.freeHead x).Rep p t :=
  h.congr fun _ _ => rfl

/-! ## A node with at most one child -/

/-- `eraseNode` sets the link of the parent and puts the node on the free list. -/
theorem eraseNode_of_read (hp : si.read p = some pn) (hc : si.read c = some n) (hpc : p ≠ c)
    (child : Int) :
    ∃ si', si.eraseNode c p n child = some si' ∧ Rewrites [p, c] (si.freeHead c) si' ∧
      si'.read p = some { relink pn c child with currentPos := p } ∧
      si'.read c = some { n with nextDelete := si.header.lastDelete, currentPos := c } := by
  obtain ⟨si1, si2, hw1, hw2, hre, hread1, hread2⟩ := write_write hp hc hpc
    { relink pn c child with currentPos := p }
    { n with nextDelete := si.header.lastDelete, currentPos := c }
  have hheader : si1.header = si.header := by
    obtain ⟨si1', hw1', hre1, -⟩ := write_of_read hp { relink pn c child with currentPos := p }
    rw [hw1] at hw1'
    cases hw1'
    exact hre1.header
  refine ⟨si2.freeHead c, ?_, ?_, hread1, hread2⟩
  · unfold relink at hw1
    simp only [eraseNode, if_pos (ne_neg_one_of_read hp), hp, Option.bind_eq_bind, Option.bind_some,
      hw1, hheader, hw2]
    rfl
  · refine ⟨hre.pk, ?_, ?_, hre.duplicatesFile, hre.length, hre.reads⟩
    · simp only [freeHead, writeHeader, hre.header]
    · simp only [freeHead, writeHeader, hre.header]

variable [KeyType κ]

/-- `erase` at the node of the key, when it has at most one child. -/
theorem erase_thin {res : Erased κ} {si1 : AVLIndex κ} (hn : si.read c = some n) (hk : n.data = k)
    (hthin : n.leftChildren = -1 ∨ n.rightChildren = -1)
    (hnode : si.eraseNode c p n
      (if n.leftChildren = -1 then n.rightChildren else n.leftChildren) = some si1)
    (hend : eraseEnd c (true, n, si1) = some res) : Returns (erase · si c p d k) (.ok res) := by
  refine .of_succ (.of_eq fun fuel => ?_)
  rw [erase, if_neg (ne_neg_one_of_read hn), hn]
  simp only [Option.bind_eq_bind, Option.bind_some, if_neg hk.not_lt, if_neg hk.not_gt]
  by_cases hl : n.leftChildren = -1
  · rw [if_pos hl] at hnode
    by_cases hr : n.rightChildren = -1
    · rw [hr] at hnode
      rw [if_pos ⟨hl, hr⟩, hnode, Option.bind_some, hend, Option.map_some]
    · rw [if_neg (fun h => hr h.2), if_pos hl, hnode, Option.bind_some, hend, Option.map_some]
  · rw [if_neg hl] at hnode
    rw [if_neg (fun h => hl h.1), if_neg hl, if_pos (hthin.resolve_left hl), hnode,
      Option.bind_some, hend, Option.map_some]

omit [KeyType κ] in
/-- The link to what remains of a node with at most one child. -/
theorem rep_join (hl : si.Rep n.leftChildren l) (hr : si.Rep n.rightChildren r)
    (hthin : l = .nil ∨ r = .nil) :
    si.Rep (if n.leftChildren = -1 then n.rightChildren else n.leftChildren) (l.join r) := by
  by_cases hnil : l = .nil
  · subst hnil
    rw [if_pos (Rep.nil_iff.1 hl)]
    exact hr
  · obtain rfl := hthin.resolve_left hnil
    rw [if_neg (mt hl.eq_neg_one_iff.1 hnil), AvlTree.join_nil]
    exact hl

/-- The node of the key goes, and its parent gets its child. -/
theorem cut_here (h : si.Rep c (.node x l b r)) (hp : si.read p = some pn) (hpos : pn.currentPos = p)
    (hnd : (p :: x :: (l.slots ++ r.slots)).Nodup) (hbal : (AvlTree.node x l b r).Balanced)
    (hk : b.data = k) (hthin : l = .nil ∨ r = .nil) :
    ∃ q n' si', Returns (erase · si c p d k) (.ok (true, n', si')) ∧
      Cut si [p, c] (.node x l b r) k (l.join r) c q si' ∧ si'.read p = some (relink pn c q) := by
  obtain ⟨rfl, n, hn, rfl, -, -, hl, hr⟩ := h
  have hnot := hnd
  simp only [List.nodup_cons, List.mem_cons, List.mem_append, not_or] at hnot
  obtain ⟨⟨hpc, hpl, hpr⟩, ⟨hcl, hcr⟩, -⟩ := hnot
  obtain ⟨si1, hnode, hre1, hread1, hread2⟩ := eraseNode_of_read hp hn hpc
    (if n.leftChildren = -1 then n.rightChildren else n.leftChildren)
  have hl1 := (hl.freeHead c).rewrites_pair hre1 hpl hcl
  have hr1 := (hr.freeHead c).rewrites_pair hre1 hpr hcr
  obtain ⟨si', hup, hre2, hread3⟩ := updateBalance_of_read hread2 hl1 hr1 hcl hcr hbal.1 hbal.2.1
  have hre : Rewrites [p, c] (si.freeHead c) si' := hre1.trans hre2 (by simp) (by simp)
  have hthin' : n.leftChildren = -1 ∨ n.rightChildren = -1 :=
    hthin.imp hl.eq_neg_one_iff.2 hr.eq_neg_one_iff.2
  refine ⟨_, n, si', erase_thin hn hk hthin' hnode (by rw [eraseEnd, hup, Option.map_some]),
    ⟨fun m hm => by rw [hn] at hm; cases hm; exact hk, hre,
      rep_join ((hl.freeHead c).rewrites_pair hre hpl hcl)
        ((hr.freeHead c).rewrites_pair hre hpr hcr) hthin, ?_, _, hread3, rfl⟩, ?_⟩
  · rcases hthin with rfl | rfl <;> simp
  · rw [hre2.reads p (by simpa using hpc), hread1,
      setCurrentPos_self (relink_currentPos.trans hpos)]

/-- The deletion goes into the right subtree. -/
theorem erase_right {res res' : Erased κ} (hn : si.read c = some n) (hlt : n.data < k)
    (h : Returns (erase · si n.rightChildren c n k) (.ok res)) (hend : eraseEnd c res = some res') :
    Returns (erase · si c p d k) (.ok res') := by
  refine .of_succ ?_
  filter_upwards [h] with fuel hfuel
  rw [erase, if_neg (ne_neg_one_of_read hn), hn]
  simp only [Option.bind_eq_bind, Option.bind_some, if_pos hlt, hfuel, hend, Option.map_some]

/-- The deletion goes into the left subtree. -/
theorem erase_left {res res' : Erased κ} (hn : si.read c = some n) (hlt : k < n.data)
    (h : Returns (erase · si n.leftChildren c n k) (.ok res)) (hend : eraseEnd c res = some res') :
    Returns (erase · si c p d k) (.ok res') := by
  refine .of_succ ?_
  filter_upwards [h] with fuel hfuel
  rw [erase, if_neg (ne_neg_one_of_read hn), hn]
  simp only [Option.bind_eq_bind, Option.bind_some, if_neg hlt.not_gt, if_pos hlt, hfuel, hend,
    Option.map_some]

omit [KeyType κ] in
/-- The way back over a node of which a subtree has been cut. -/
theorem Stale.cut {S : List Int} {si2 : AVLIndex κ} (h : si2.Stale c l b r)
    (hkey : ∀ n, si.read x = some n → n.data = k)
    (hre : Rewrites S (si.freeHead x) si2) (hS : S ⊆ t.slots)
    (hperm : (x :: c :: (l.slots ++ r.slots)).Perm t.slots) (hnd : t.slots.Nodup)
    (hfree : ∃ n, si2.read x = some n ∧ n.nextDelete = si.header.lastDelete) (n : AVLIndexNode κ) :
    ∃ si', eraseEnd c (true, n, si2) = some (true, n, si') ∧
      Cut si t.slots t k (.rebalance c l b r) x c si' := by
  obtain ⟨hx, hnd'⟩ := List.nodup_cons.1 (hperm.nodup_iff.2 hnd)
  obtain ⟨si', hup, hre', hrep⟩ := h.updateBalance hnd'
  refine ⟨si', by rw [eraseEnd, hup, Option.map_some], hkey, hre.trans hre' hS ?_, hrep, ?_, ?_⟩
  · exact fun y hy => hperm.subset (.tail _ hy)
  · exact (AvlTree.slots_rebalance.cons x).trans hperm
  · rw [hre'.reads x hx]
    exact hfree

omit [KeyType κ] in
/-- A tree that is not empty has its root among its slots. -/
theorem Rep.mem_slots (h : si.Rep p t) (ht : t ≠ .nil) : p ∈ t.slots := by
  cases t with
  | nil => exact absurd rfl ht
  | node s l b r => rw [h.1]; simp

omit [KeyType κ] in
/-- Links to two trees that have no slot in common. -/
theorem Rep.link_ne (hl : si.Rep p l) (hr : si.Rep q r) (h : l ≠ .nil ∨ r ≠ .nil)
    (hdisj : ∀ x ∈ l.slots, ∀ y ∈ r.slots, x ≠ y) : p ≠ q := by
  rintro rfl
  have hnil : l = .nil ↔ r = .nil := hl.eq_neg_one_iff.symm.trans hr.eq_neg_one_iff
  have hne : l ≠ .nil ∧ r ≠ .nil := by
    by_cases hr : r = .nil
    · exact absurd (hnil.2 hr) (h.resolve_right (not_not.2 hr))
    · exact ⟨mt hnil.1 hr, hr⟩
  exact hdisj p (hl.mem_slots hne.1) p (hr.mem_slots hne.2) rfl

/-- A node of which the right subtree has been cut. -/
theorem cut_right {n' : AVLIndexNode κ} {si2 : AVLIndex κ} (h : si.Rep c (.node c l b r))
    (hn : si.read c = some n) (hlt : b.data < k) (hnd : (AvlTree.node c l b r).slots.Nodup)
    (hret : Returns (erase · si n.rightChildren c n k) (.ok (true, n', si2)))
    (hcut : Cut si (c :: r.slots) r k t' x q si2)
    (hread : si2.read c = some (relink n n.rightChildren q)) :
    ∃ si', Returns (erase · si c p d k) (.ok (true, n', si')) ∧
      Cut si (AvlTree.node c l b r).slots (.node c l b r) k (.rebalance c l b t') x c si' := by
  obtain ⟨-, m, hm, rfl, -, -, hl, hr⟩ := h
  obtain rfl : n = m := Option.some.inj (hn.symm.trans hm)
  obtain ⟨hc, hlr⟩ := List.nodup_cons.1 hnd
  have hdisj := (List.nodup_append.1 hlr).2.2
  have hne : r ≠ .nil := fun e => by have := hcut.slots; simp [e] at this
  have hlink := hl.link_ne hr (.inr hne) hdisj
  rw [relink_right hlink rfl] at hread
  have hl2 : si2.Rep n.leftChildren l := by
    refine (hl.freeHead x).rewrites hcut.rewrites fun y hy hy' => ?_
    rcases List.mem_cons.1 hy' with rfl | hy'
    · exact hc (List.mem_append_left _ hy)
    · exact hdisj y hy y hy' rfl
  have hstale : si2.Stale c l n.toRecord t' := ⟨_, hread, rfl, hl2, hcut.rep⟩
  obtain ⟨si', hend, hcut'⟩ := hstale.cut (t := .node c l n.toRecord r) hcut.key hcut.rewrites
    (by simp)
    ((List.Perm.swap ..).trans
      ((List.perm_middle.symm.trans (hcut.slots.append_left l.slots)).cons c)) hnd hcut.freed n'
  exact ⟨si', erase_right hn hlt hret hend, hcut'⟩

/-- A node of which the left subtree has been cut. -/
theorem cut_left {n' : AVLIndexNode κ} {si2 : AVLIndex κ} (h : si.Rep c (.node c l b r))
    (hn : si.read c = some n) (hlt : k < b.data) (hnd : (AvlTree.node c l b r).slots.Nodup)
    (hret : Returns (erase · si n.leftChildren c n k) (.ok (true, n', si2)))
    (hcut : Cut si (c :: l.slots) l k t' x q si2)
    (hread : si2.read c = some (relink n n.leftChildren q)) :
    ∃ si', Returns (erase · si c p d k) (.ok (true, n', si')) ∧
      Cut si (AvlTree.node c l b r).slots (.node c l b r) k (.rebalance c t' b r) x c si' := by
  obtain ⟨-, m, hm, rfl, -, -, hl, hr⟩ := h
  obtain rfl : n = m := Option.some.inj (hn.symm.trans hm)
  obtain ⟨hc, hlr⟩ := List.nodup_cons.1 hnd
  have hdisj := (List.nodup_append.1 hlr).2.2
  rw [relink_left rfl] at hread
  have hr2 : si2.Rep n.rightChildren r := by
    refine (hr.freeHead x).rewrites hcut.rewrites fun y hy hy' => ?_
    rcases List.mem_cons.1 hy' with rfl | hy'
    · exact hc (List.mem_append_right _ hy)
    · exact hdisj y hy' y hy rfl
  have hstale : si2.Stale c t' n.toRecord r := ⟨_, hread, rfl, hcut.rep, hr2⟩
  obtain ⟨si', hend, hcut'⟩ := hstale.cut (t := .node c l n.toRecord r) hcut.key hcut.rewrites
    (by simp)
    ((List.Perm.swap ..).trans ((hcut.slots.append_right r.slots).cons c)) hnd hcut.freed n'
  exact ⟨si', erase_left hn hlt hret hend, hcut'⟩

/-- The key `k` is in the tree, at a node with at most one child. -/
structure Erasable (k : κ) (t : AvlTree Int (Record κ)) : Prop where
  nodup : t.slots.Nodup
  balanced : t.Balanced
  sorted : SortedBy (·.data) t.toList
  mem : k ∈ t.toList.map (·.data)
  thin : t.Thin (·.data) k

/-- What `erase` does to a tree whose root has the parent `p`. -/
def ErasesBelow (si : AVLIndex κ) (k : κ) (t : AvlTree Int (Record κ)) : Prop :=
  Erasable k t → ∀ c p pn d, si.Rep c t → si.read p = some pn → pn.currentPos = p →
    p ∉ t.slots → ∃ x q n' si', Returns (erase · si c p d k) (.ok (true, n', si')) ∧
      Cut si (p :: t.slots) t k (t.erase (·.data) k) x q si' ∧ si'.read p = some (relink pn c q)

/-- A larger key can be erased on the right. -/
theorem Erasable.right (h : Erasable k (.node c l b r)) (hlt : b.data < k) : Erasable k r := by
  obtain ⟨hnd, hbal, hsorted, hmem, hthin⟩ := h
  obtain ⟨-, hsr, hlb, -⟩ := AvlTree.sorted_node.1 hsorted
  refine ⟨(List.nodup_append.1 (List.nodup_cons.1 hnd).2).2.1, hbal.2.2.2, hsr, ?_,
    (AvlTree.thin_of_lt hlt).1 hthin⟩
  obtain ⟨y, hy, rfl⟩ := List.mem_map.1 hmem
  rw [AvlTree.toList_node, List.mem_append, List.mem_cons] at hy
  rcases hy with hy | rfl | hy
  · exact absurd hlt (hlb y hy).not_gt
  · exact absurd hlt (lt_irrefl _)
  · exact List.mem_map_of_mem hy

/-- A smaller key can be erased on the left. -/
theorem Erasable.left (h : Erasable k (.node c l b r)) (hgt : k < b.data) : Erasable k l := by
  obtain ⟨hnd, hbal, hsorted, hmem, hthin⟩ := h
  obtain ⟨hsl, -, -, hbr⟩ := AvlTree.sorted_node.1 hsorted
  refine ⟨(List.nodup_append.1 (List.nodup_cons.1 hnd).2).1, hbal.2.2.1, hsl, ?_,
    (AvlTree.thin_of_gt hgt).1 hthin⟩
  obtain ⟨y, hy, rfl⟩ := List.mem_map.1 hmem
  rw [AvlTree.toList_node, List.mem_append, List.mem_cons] at hy
  rcases hy with hy | rfl | hy
  · exact List.mem_map_of_mem hy
  · exact absurd hgt (lt_irrefl _)
  · exact absurd hgt (hbr y hy).not_gt

/-- `erase` at a node that does not have the key. -/
theorem ErasesBelow.node (hel : ErasesBelow si k l) (her : ErasesBelow si k r)
    (h : si.Rep c (.node c l b r)) (he : Erasable k (.node c l b r)) (hk : b.data ≠ k) :
    ∃ x n' si', Returns (erase · si c p d k) (.ok (true, n', si')) ∧
      Cut si (AvlTree.node c l b r).slots (.node c l b r) k
        (AvlTree.erase (·.data) k (.node c l b r)) x c si' := by
  obtain ⟨-, n, hn, -, hpos, -, hl, hr⟩ := id h
  have hc := (List.nodup_cons.1 he.nodup).1
  rcases lt_or_gt_of_ne hk with hlt | hgt
  · obtain ⟨x, q, n', si2, hret, hcut, hread⟩ := her (he.right hlt) _ c n n hr hn hpos
      fun hy => hc (List.mem_append_right _ hy)
    have heq : (AvlTree.node c l b r).erase (·.data) k = .rebalance c l b (r.erase (·.data) k) :=
      AvlTree.erase_of_lt hlt
    rw [heq]
    exact ⟨x, n', cut_right h hn hlt he.nodup hret hcut hread⟩
  · obtain ⟨x, q, n', si2, hret, hcut, hread⟩ := hel (he.left hgt) _ c n n hl hn hpos
      fun hy => hc (List.mem_append_left _ hy)
    have heq : (AvlTree.node c l b r).erase (·.data) k = .rebalance c (l.erase (·.data) k) b r :=
      AvlTree.erase_of_gt hgt
    rw [heq]
    exact ⟨x, n', cut_left h hn hgt he.nodup hret hcut hread⟩

/-- `erase` of a tree below a parent, by induction on the tree. -/
theorem erasesBelow (si : AVLIndex κ) (k : κ) : ∀ t, ErasesBelow si k t
  | .nil => fun he => nomatch he.mem
  | .node u l b r => by
    intro he c p pn d h hp hpos hpt
    obtain rfl : c = u := h.1
    by_cases hk : b.data = k
    · obtain ⟨q, n', si', hret, hcut, hread⟩ := cut_here (d := d) h hp hpos
        (List.nodup_cons.2 ⟨hpt, he.nodup⟩) he.balanced hk ((AvlTree.thin_of_eq hk).1 he.thin)
      rw [AvlTree.erase_of_eq hk]
      exact ⟨c, q, n', si', hret, { hcut with rewrites := hcut.rewrites.mono (by simp) }, hread⟩
    · obtain ⟨x, n', si', hret, hcut⟩ := (erasesBelow si k l).node (erasesBelow si k r) h he hk
        (p := p) (d := d)
      refine ⟨x, c, n', si', hret, { hcut with rewrites := hcut.rewrites.mono (by simp) }, ?_⟩
      rw [relink_self, hcut.rewrites.reads p hpt]
      exact hp

/-- `erase` from the root, of a key below it whose node has at most one child. -/
theorem erase_root (h : si.Rep c t) (he : Erasable k t)
    (hroot : ∀ n, si.read c = some n → n.data ≠ k) :
    ∃ x n' si', Returns (erase · si c p d k) (.ok (true, n', si')) ∧
      Cut si t.slots t k (t.erase (·.data) k) x c si' := by
  cases t with
  | nil => exact nomatch he.mem
  | node u l b r =>
    obtain ⟨rfl, n, hn, rfl, -⟩ := id h
    exact (erasesBelow si k l).node (erasesBelow si k r) h he (hroot n hn)

end AVLIndex

end Rdbms
