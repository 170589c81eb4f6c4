import Rdbms.Avl.Remove
import Rdbms.Avl.Unplaced

/-!
# What `remove` reports

`remove` reports the position in the last node that `erase` has read. The node of the key is that
node, since the deletion of its predecessor reads into a node of its own. But `erase` also reads
nodes on the way to a key that does not occur, and its result is not looked at: `remove` always
reports one position, so it reports the right ones exactly for the keys of the tree
(`remove_reports_iff`).
-/

namespace Rdbms

namespace AVLIndex
variable {κ : Type} {si si' : AVLIndex κ} {c p : Int} {n d : AVLIndexNode κ} {b : Record κ}
  {t l r : AvlTree Int (Record κ)} {k : κ}

/-! ## A file without regard to the positions in the nodes -/

/-- The node at `p` is the root of the tree `t` in the file, whose nodes have the right heights. -/
def Shape (si : AVLIndex κ) : Int → AvlTree Int (Record κ) → Prop
  | p, .nil => p = -1
  | p, .node s l a r => p = s ∧ ∃ n, si.read p = some n ∧ n.toRecord = a ∧
      n.height = (AvlTree.node s l a r).height ∧ Shape si n.leftChildren l ∧
      Shape si n.rightChildren r

/-- The index with every node's own offset in it. -/
def placed (si : AVLIndex κ) : AVLIndex κ :=
  { si with nodes := si.nodes.mapIdx fun i n => { n with currentPos := avlLayout.pos i } }

/-- Setting the positions right changes nothing else. -/
theorem placed_unplaced (si : AVLIndex κ) : si.placed.unplaced = si.unplaced := by
  simp only [placed, unplaced]
  congr 1
  refine List.ext_getElem (by simp) fun i h1 h2 => ?_
  simp [AVLIndexNode.unplaced]

/-- A node is read with its own offset in it. -/
theorem read_placed (si : AVLIndex κ) (p : Int) :
    si.placed.read p = (si.read p).map fun n => { n with currentPos := p } := by
  cases hslot : avlLayout.slot? p with
  | none => simp [read, Layout.read, hslot]
  | some i =>
    obtain rfl := Layout.pos_of_slot? hslot
    simp [read, placed, Layout.read_pos]

/-- A tree whose positions do not matter is one when they are right. -/
theorem Shape.placed : ∀ {t : AvlTree Int (Record κ)} {p : Int}, si.Shape p t → si.placed.Rep p t
  | .nil, _, h => h
  | .node s l b r, p, ⟨hp, n, hn, hb, hheight, hl, hr⟩ => by
    refine ⟨hp, { n with currentPos := p }, ?_, hb, rfl, hheight, hl.placed, hr.placed⟩
    rw [read_placed, hn, Option.map_some]

variable [KeyType κ]

/-! ## What `erase` has read -/

omit [KeyType κ] in
/-- The way back through `erase` hands on what is below. -/
theorem eraseEnd_eq_some {removed removed' : Bool} {n' : AVLIndexNode κ} {s s' : AVLIndex κ}
    (h : eraseEnd c (removed, n, s) = some (removed', n', s')) : removed = removed' ∧ n = n' := by
  cases removed with
  | false =>
    cases h
    exact ⟨rfl, rfl⟩
  | true =>
    obtain ⟨s', -, heq⟩ := Option.map_eq_some_iff.1 h
    cases heq
    exact ⟨rfl, rfl⟩

/-- `erase` at the node of the key hands up that node. -/
theorem erase_at_key {fuel : Nat} {c p : Int} {d n m : AVLIndexNode κ} {si' : AVLIndex κ}
    (hm : si.read c = some m) (hk : m.data = k)
    (h : erase (fuel + 1) si c p d k = some (.ok (true, n, si'))) : n = m := by
  have hend {s : AVLIndex κ}
      (h : (eraseEnd c (true, m, s)).map Except.ok = some (Except.ok (ε := Exn) (true, n, si'))) :
      n = m := by
    obtain ⟨res, hend, hok⟩ := Option.map_eq_some_iff.1 h
    cases hok
    exact (eraseEnd_eq_some hend).2.symm
  rw [erase, if_neg (ne_neg_one_of_read hm), hm] at h
  simp only [Option.bind_eq_bind, Option.bind_some, if_neg hk.not_lt, if_neg hk.not_gt] at h
  -- a node with at most one child is taken out, one with two gets the contents of another node
  by_cases hleaf : m.leftChildren = -1 ∧ m.rightChildren = -1
  · rw [if_pos hleaf] at h
    obtain ⟨s, -, h⟩ := Option.bind_eq_some_iff.1 h
    exact hend h
  rw [if_neg hleaf] at h
  by_cases hleft : m.leftChildren = -1
  · rw [if_pos hleft] at h
    obtain ⟨s, -, h⟩ := Option.bind_eq_some_iff.1 h
    exact hend h
  rw [if_neg hleft] at h
  by_cases hright : m.rightChildren = -1
  · rw [if_pos hright] at h
    obtain ⟨s, -, h⟩ := Option.bind_eq_some_iff.1 h
    exact hend h
  · rw [if_neg hright] at h
    obtain ⟨r, -, h⟩ := Option.bind_eq_some_iff.1 h
    cases r with
    | error e => cases h
    | ok newPos =>
      obtain ⟨tempNode, -, h⟩ := Option.bind_eq_some_iff.1 h
      obtain ⟨res, -, h⟩ := Option.bind_eq_some_iff.1 h
      cases res with
      | error e => cases h
      | ok res =>
        obtain ⟨s, -, h⟩ := Option.bind_eq_some_iff.1 h
        exact hend h

/-- The node that a deletion comes back with is the one of the key. -/
theorem erase_node : ∀ (fuel : Nat) {t : AvlTree Int (Record κ)} {c p : Int} {d n : AVLIndexNode κ}
    {si' : AVLIndex κ}, si.Rep c t → erase fuel si c p d k = some (.ok (true, n, si')) →
    n.toRecord ∈ t.toList ∧ n.data = k
  | 0, _, _, _, _, _, _, _, h => nomatch h
  | fuel + 1, .nil, c, p, d, n, si', hrep, h => by
    rw [erase, if_pos (Rep.nil_iff.1 hrep)] at h
    cases h
  | fuel + 1, .node s l b r, c, p, d, n, si', hrep, h => by
    obtain ⟨rfl, m, hm, rfl, -, -, hl, hr⟩ := hrep
    by_cases hk : m.data = k
    · obtain rfl := erase_at_key hm hk h
      exact ⟨by simp, hk⟩
    rw [erase, if_neg (ne_neg_one_of_read hm), hm] at h
    simp only [Option.bind_eq_bind, Option.bind_some] at h
    -- a call for a subtree comes back with the node that this call comes back with
    have hbelow {q : Int} {u : AvlTree Int (Record κ)} {res : Erased κ} (hq : si.Rep q u)
        (hres : erase fuel si q c m k = some (.ok res))
        (h : (eraseEnd c res).map Except.ok = some (Except.ok (ε := Exn) (true, n, si'))) :
        n.toRecord ∈ u.toList ∧ n.data = k := by
      obtain ⟨res', hend, hok⟩ := Option.map_eq_some_iff.1 h
      cases hok
      obtain ⟨removed, n', s'⟩ := res
      obtain ⟨rfl, rfl⟩ := eraseEnd_eq_some hend
      exact erase_node fuel hq hres
    rcases lt_or_gt_of_ne hk with hlt | hgt
    · rw [if_pos hlt] at h
      obtain ⟨res, hres, h⟩ := Option.bind_eq_some_iff.1 h
      cases res with
      | error e => cases h
      | ok res =>
        have := hbelow hr hres h
        exact ⟨by simp [this.1], this.2⟩
    · rw [if_neg hgt.not_gt, if_pos hgt] at h
      obtain ⟨res, hres, h⟩ := Option.bind_eq_some_iff.1 h
      cases res with
      | error e => cases h
      | ok res =>
        have := hbelow hl hres h
        exact ⟨by simp [this.1], this.2⟩

/-! ## The root -/

/-- `erase` of the key of the root, when it has at most one child. -/
theorem erase_thin_root (h : si.Rep c (.node c l b r)) (hnd : (AvlTree.node c l b r).slots.Nodup)
    (hbal : (AvlTree.node c l b r).Balanced) (hk : b.data = k) (hthin : l = .nil ∨ r = .nil) :
    ∃ n' si', Returns (erase · si c (-1) d k) (.ok (true, n', si')) := by
  obtain ⟨-, n, hn, rfl, -, -, hl, hr⟩ := h
  have hc := (List.nodup_cons.1 hnd).1
  have hcl : c ∉ l.slots := fun h => hc (List.mem_append_left _ h)
  have hcr : c ∉ r.slots := fun h => hc (List.mem_append_right _ h)
  obtain ⟨si1, hw, hre, hread⟩ := write_of_read hn
    { n with nextDelete := si.header.lastDelete, currentPos := c }
  have hnode (child : Int) : si.eraseNode c (-1) n child = some (si1.freeHead c) := by
    rw [eraseNode, if_neg (not_not.2 rfl)]
    simp only [Option.bind_eq_bind, Option.bind_some, hw]
    rfl
  have hl1 := (hl.rewrites hre fun q hq hc' => hcl (List.mem_singleton.1 hc' ▸ hq)).freeHead c
  have hr1 := (hr.rewrites hre fun q hq hc' => hcr (List.mem_singleton.1 hc' ▸ hq)).freeHead c
  have hread1 : (si1.freeHead c).read c =
      some { n with nextDelete := si.header.lastDelete, currentPos := c } := hread
  obtain ⟨si', hup, -, -⟩ := updateBalance_of_read hread1 hl1 hr1 hcl hcr hbal.1 hbal.2.1
  exact ⟨n, si', erase_thin hn hk (hthin.imp hl.eq_neg_one_iff.2 hr.eq_neg_one_iff.2) (hnode _)
    (by rw [eraseEnd, hup, Option.map_some])⟩

/-- `erase` of a key of the tree comes back, whatever its place. -/
theorem erase_present (h : si.Rep si.header.rootPointer t) (hnd : t.slots.Nodup)
    (hbal : t.Balanced) (hsorted : SortedBy (·.data) t.toList) (hmem : k ∈ t.toList.map (·.data)) :
    ∃ n' si', Returns (erase · si si.header.rootPointer (-1) d k) (.ok (true, n', si')) := by
  by_cases hthin : t.Thin (·.data) k
  · cases t with
    | nil => exact nomatch hmem
    | node u l b r =>
      obtain hu : si.header.rootPointer = u := h.1
      by_cases hk : b.data = k
      · rw [hu] at h ⊢
        exact erase_thin_root h hnd hbal hk ((AvlTree.thin_of_eq hk).1 hthin)
      · obtain ⟨x, n', si', hret, -⟩ := erase_root (p := -1) (d := d) h
          ⟨hnd, hbal, hsorted, hmem, hthin⟩ fun n hn hnk => hk (by
            obtain ⟨-, n', hn', rfl, -⟩ := h
            obtain rfl : n = n' := Option.some.inj (hn.symm.trans hn')
            exact hnk)
        exact ⟨n', si', hret⟩
  · obtain ⟨m, -, x, n', si', t', hret, -⟩ := erase_two (p := -1) (d := d) h hnd hbal hsorted .refl h
      hthin
    exact ⟨n', si', hret⟩

/-! ## `remove` -/

/-- What `erase` comes back with does not depend on the positions in the nodes. -/
theorem remove_of_placed {removed : Bool}
    (h : Returns (erase · si.placed si.placed.header.rootPointer (-1) default k)
      (.ok (removed, n, si'))) :
    Returns (fun fuel => (si.remove fuel k).map (·.1)) (.ok [n.rawPos]) := by
  filter_upwards [h] with fuel hfuel
  have hcongr := erase_congr fuel si.placed_unplaced si.header.rootPointer (-1) default 0 k
  have hfuel' : erase fuel si.placed si.header.rootPointer (-1) default k =
      some (.ok (removed, n, si')) := hfuel
  rw [hfuel', Option.map_some] at hcongr
  obtain ⟨res, hres, hmap⟩ := Option.map_eq_some_iff.1 hcongr.symm
  cases res with
  | error e => cases hmap
  | ok res =>
    have hpos : res.2.1.rawPos = n.rawPos := congrArg (·.2.1.rawPos) (Except.ok.inj hmap)
    rw [remove, show erase fuel si si.header.rootPointer (-1) default k = some (.ok res) from hres,
      ← hpos]
    rfl

/-- The positions that are stored with a key. -/
def storedWith (t : AvlTree Int (Record κ)) (k : κ) : List Int :=
  (t.toList.filter (·.data = k)).map (·.rawPos)

/-- A key of the tree is stored with one position. -/
theorem storedWith_eq {y : Record κ} (hsorted : SortedBy (·.data) t.toList) (hy : y ∈ t.toList)
    (hk : y.data = k) : storedWith t k = [y.rawPos] := by
  have hfilter : t.toList.filter (·.data = k) = [y] := by
    refine (hsorted.filter _).eq_of_mem_iff (List.pairwise_singleton _ y) fun x => ?_
    rw [List.mem_filter, decide_eq_true_eq, List.mem_singleton]
    constructor
    · exact fun ⟨hx, hxk⟩ => hsorted.eq_of_key hx hy (hxk.trans hk.symm)
    · rintro rfl
      exact ⟨hy, hk⟩
  rw [storedWith, hfilter, List.map_singleton]

/-- On every file whose nodes form a balanced search tree with the right heights: what `remove`
reports of a key is what is stored with it exactly when the key is in the tree. -/
theorem remove_reports_iff (h : si.Shape si.header.rootPointer t) (hnd : t.slots.Nodup)
    (hbal : t.Balanced) (hsorted : SortedBy (·.data) t.toList) (k : κ) :
    Returns (fun fuel => (si.remove fuel k).map (·.1)) (.ok (storedWith t k)) ↔
      k ∈ t.toList.map (·.data) := by
  have hrep : si.placed.Rep si.placed.header.rootPointer t := h.placed
  constructor
  · intro hret
    by_contra hmem
    obtain ⟨n, habsent⟩ := erase_absent (k := k) (p := -1) (d := default) hrep fun y hy hyk =>
      hmem (List.mem_map.2 ⟨y, hy, hyk⟩)
    have hone := hret.unique (remove_of_placed habsent)
    have hnone : storedWith t k = [] := by
      rw [storedWith, List.filter_eq_nil_iff.2, List.map_nil]
      exact fun y hy hyk => hmem (List.mem_map.2 ⟨y, hy, of_decide_eq_true hyk⟩)
    rw [hnone] at hone
    cases hone
  · intro hmem
    obtain ⟨n, si', hret⟩ := erase_present (d := default) hrep hnd hbal hsorted hmem
    obtain ⟨fuel, hfuel⟩ := hret.exists
    obtain ⟨hn, hk⟩ := erase_node fuel hrep hfuel
    rw [storedWith_eq hsorted hn hk]
    exact remove_of_placed hret

/-- A root with the key 5 and two children. -/
def threeNodes : AVLIndex Int :=
  { pk := false, header := ⟨32, -1⟩, fileHeader := ⟨32, -1⟩, duplicatesFile := []
    nodes := [⟨⟨5, 0, -1⟩, 32, 152, 272, -1, 1⟩, ⟨⟨3, 64, -1⟩, 152, -1, -1, -1, 0⟩,
      ⟨⟨7, 128, -1⟩, 272, -1, -1, -1, 0⟩] }

/-- The tree of these nodes. -/
def threeTree : AvlTree Int (Record Int) :=
  .node 32 (.node 152 .nil ⟨3, 64, -1⟩ .nil) ⟨5, 0, -1⟩ (.node 272 .nil ⟨7, 128, -1⟩ .nil)

/-- The files hold a tree of three nodes. -/
theorem threeNodes_shape : threeNodes.Shape 32 threeTree :=
  ⟨rfl, _, rfl, rfl, rfl, ⟨rfl, _, rfl, rfl, rfl, rfl, rfl⟩, ⟨rfl, _, rfl, rfl, rfl, rfl, rfl⟩⟩

/-- Its heights differ by one at most. -/
theorem threeTree_balanced : threeTree.Balanced := by simp [threeTree, AvlTree.Balanced]

/-- Its keys are in order. -/
theorem threeTree_sorted : SortedBy (·.data) threeTree.toList := by simp [SortedBy, threeTree]

/-- The key of the root. -/
theorem remove_reports_iff_sample :
    Returns (fun fuel => (threeNodes.remove fuel 5).map (·.1)) (.ok [0]) :=
  (remove_reports_iff threeNodes_shape (by decide) threeTree_balanced threeTree_sorted 5).2 (by decide)

/-- The key 4 is not stored. What is reported is the position of the key 3, the last one that was
compared. -/
theorem not_remove_reports : (threeNodes.Shape 32 threeTree ∧ threeTree.slots.Nodup ∧
    threeTree.Balanced ∧ SortedBy (·.data) threeTree.toList) ∧ storedWith threeTree 4 = [] ∧
    Returns (threeNodes.remove · 4) (.ok [64], threeNodes) :=
  ⟨⟨threeNodes_shape, by decide, threeTree_balanced, threeTree_sorted⟩, rfl, .of_add 3 fun _ => rfl⟩

end AVLIndex

end Rdbms
