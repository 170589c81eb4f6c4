import Rdbms.Lib.AvlTree
import Rdbms.Avl.Model

/-!
# The tree in the file

`Rep si p t` says that the nodes of the file that are reached from the link `p` are the tree `t`,
each in its slot, with the height that it has and its own position. The functions that put a node
back in balance do to this tree what `AvlTree.rebalance` does, and they write to its slots only
(`Rewrites`).
-/

namespace Rdbms

namespace AVLIndex
variable {κ : Type} {si si' : AVLIndex κ} {p q : Int} {n : AVLIndexNode κ} {b : Record κ}
  {t l r A B C : AvlTree Int (Record κ)}

/-- The node at `p` is the root of the tree `t` in the file. -/
def Rep (si : AVLIndex κ) : Int → AvlTree Int (Record κ) → Prop
  | p, .nil => p = -1
  | p, .node s l a r => p = s ∧ ∃ n, si.read p = some n ∧ n.toRecord = a ∧ n.currentPos = p ∧
      n.height = (AvlTree.node s l a r).height ∧ Rep si n.leftChildren l ∧
      Rep si n.rightChildren r

/-- The same for the node at `p` itself with any height and position in it. -/
def Stale (si : AVLIndex κ) (p : Int) (l : AvlTree Int (Record κ)) (a : Record κ)
    (r : AvlTree Int (Record κ)) : Prop :=
  ∃ n, si.read p = some n ∧ n.toRecord = a ∧ si.Rep n.leftChildren l ∧ si.Rep n.rightChildren r

/-- All that has changed from `si` to `si'` are the nodes in the slots `S`. -/
structure Rewrites (S : List Int) (si si' : AVLIndex κ) : Prop where
  pk : si'.pk = si.pk
  header : si'.header = si.header
  fileHeader : si'.fileHeader = si.fileHeader
  duplicatesFile : si'.duplicatesFile = si.duplicatesFile
  length : si'.nodes.length = si.nodes.length
  reads : ∀ q, q ∉ S → si'.read q = si.read q

/-- Nothing has changed. -/
theorem Rewrites.refl {S : List Int} : Rewrites S si si := ⟨rfl, rfl, rfl, rfl, rfl, fun _ _ => rfl⟩

/-- One change after another. -/
theorem Rewrites.trans {S T U : List Int} {si'' : AVLIndex κ} (h1 : Rewrites S si si')
    (h2 : Rewrites T si' si'') (hS : S ⊆ U) (hT : T ⊆ U) : Rewrites U si si'' where
  pk := h2.pk.trans h1.pk
  header := h2.header.trans h1.header
  fileHeader := h2.fileHeader.trans h1.fileHeader
  duplicatesFile := h2.duplicatesFile.trans h1.duplicatesFile
  length := h2.length.trans h1.length
  reads q hq := (h2.reads q fun h => hq (hT h)).trans (h1.reads q fun h => hq (hS h))

/-- More slots may have changed. -/
theorem Rewrites.mono {S T : List Int} (h : Rewrites S si si') (hS : S ⊆ T) : Rewrites T si si' :=
  h.trans .refl hS hS

/-- No node is at `-1`. -/
theorem ne_neg_one_of_read (h : si.read p = some n) : p ≠ -1 := Layout.ne_neg_one_of_read h

/-- Writing over a node. -/
theorem write_of_read (h : si.read p = some n) (x : AVLIndexNode κ) :
    ∃ si', si.write p x = some si' ∧ Rewrites [p] si si' ∧ si'.read p = some x := by
  obtain ⟨i, hi, rfl, hn⟩ := Layout.read_eq_some h
  refine ⟨{ si with nodes := avlLayout.write si.nodes (avlLayout.pos i) x }, ?_, ?_, ?_⟩
  · simp only [write, Layout.slot?_pos, if_pos hi.le]
  · refine ⟨rfl, rfl, rfl, rfl, Layout.length_write h, fun q hq => ?_⟩
    exact Layout.read_write_ne h (by simpa using hq)
  · exact Layout.read_write_self h

/-! ## Reading the tree -/

/-- An empty tree is at `-1`. -/
theorem Rep.nil_iff : si.Rep p .nil ↔ p = -1 := Iff.rfl

/-- A node whose height and position are right is also one whose are any. -/
theorem Rep.stale {s : Int} (h : si.Rep p (.node s l b r)) : si.Stale p l b r := by
  obtain ⟨-, n, hn, hb, -, -, hl, hr⟩ := h
  exact ⟨n, hn, hb, hl, hr⟩

/-- A tree does not change when its slots do not. -/
theorem Rep.congr : ∀ {t : AvlTree Int (Record κ)} {p : Int}, si.Rep p t →
    (∀ q ∈ t.slots, si'.read q = si.read q) → si'.Rep p t
  | .nil, _, h, _ => h
  | .node s l b r, p, ⟨hp, n, hn, hb, hpos, hheight, hl, hr⟩, h => by
    refine ⟨hp, n, ?_, hb, hpos, hheight, hl.congr fun q hq => h q ?_, hr.congr fun q hq => h q ?_⟩
    · rw [hp] at hn ⊢
      rw [h s (by simp), hn]
    · simp [hq]
    · simp [hq]

/-- A tree stays when other slots change. -/
theorem Rep.rewrites {S : List Int} (h : si.Rep p t) (hw : Rewrites S si si')
    (hS : ∀ q ∈ t.slots, q ∉ S) : si'.Rep p t :=
  h.congr fun q hq => hw.reads q (hS q hq)

/-- The link to a tree is its root's slot. -/
theorem Rep.eq_neg_one_iff (h : si.Rep p t) : p = -1 ↔ t = .nil := by
  cases t with
  | nil => exact ⟨fun _ => rfl, fun _ => h⟩
  | node s l b r =>
    obtain ⟨-, n, hn, -⟩ := h
    exact ⟨fun hp => absurd hp (ne_neg_one_of_read hn), fun ht => by cases ht⟩

/-- The nodes and the link to the root determine the tree. -/
theorem Rep.unique : ∀ {t t' : AvlTree Int (Record κ)} {p : Int}, si.Rep p t → si.Rep p t' → t = t'
  | .nil, .nil, _, _, _ => rfl
  | .nil, .node .., _, h, ⟨_, _, hn, _⟩ => absurd h (ne_neg_one_of_read hn)
  | .node .., .nil, _, ⟨_, _, hn, _⟩, h => absurd h (ne_neg_one_of_read hn)
  | .node .., .node .., p, ⟨hp, n, hn, hb, _, _, hl, hr⟩, ⟨hp', n', hn', hb', _, _, hl', hr'⟩ => by
    obtain rfl : n = n' := Option.some.inj (hn.symm.trans hn')
    subst hp hp' hb hb'
    rw [hl.unique hl', hr.unique hr']

/-- `height` reads the height of the tree. -/
theorem Rep.height (h : si.Rep p t) : si.height p = some t.height := by
  cases t with
  | nil => rw [AVLIndex.height, if_pos (Rep.nil_iff.1 h)]; rfl
  | node s l b r =>
    obtain ⟨-, n, hn, -, -, hheight, -⟩ := h
    rw [AVLIndex.height, if_neg (ne_neg_one_of_read hn), hn, Option.map_some, hheight]

/-- `balancingFactor` reads the heights of the subtrees. -/
theorem Stale.balancingFactor (h : si.Stale p l b r) :
    si.balancingFactor p = some (l.height - r.height) := by
  obtain ⟨n, hn, -, hl, hr⟩ := h
  rw [AVLIndex.balancingFactor, if_neg (ne_neg_one_of_read hn), hn]
  simp only [Option.bind_eq_bind, Option.bind_some, hl.height, hr.height]

/-- The same for a tree whose own height is right. -/
theorem Rep.balancingFactor (h : si.Rep p t) : si.balancingFactor p = some t.factor := by
  cases t with
  | nil => rw [AVLIndex.balancingFactor, if_pos (Rep.nil_iff.1 h)]; rfl
  | node s l b r => exact h.stale.balancingFactor

/-! ## Heights -/

/-- `updateHeigth` writes the height and the position into a node. -/
theorem updateHeigth_of_read (hn : si.read p = some n) (hl : si.Rep n.leftChildren l)
    (hr : si.Rep n.rightChildren r) :
    ∃ si', si.updateHeigth p = some si' ∧ Rewrites [p] si si' ∧
      si'.read p = some { n with height := 1 + max l.height r.height, currentPos := p } := by
  obtain ⟨si', hw, hre, hread⟩ := write_of_read hn
    { n with height := 1 + max l.height r.height, currentPos := p }
  refine ⟨si', ?_, hre, hread⟩
  rw [AVLIndex.updateHeigth, if_neg (ne_neg_one_of_read hn), hn]
  simp only [Option.bind_eq_bind, Option.bind_some, hl.height, hr.height]
  rw [← hw]
  congr 3
  rcases lt_or_ge l.height r.height with hlt | hge
  · rw [if_pos hlt, max_eq_right hlt.le]
  · rw [if_neg hge.not_gt, max_eq_left hge]

/-- `updateHeigth` puts the height of the root right, and changes no other node. -/
theorem Stale.updateHeigth (h : si.Stale p l b r) (hl : p ∉ l.slots) (hr : p ∉ r.slots) :
    ∃ si', si.updateHeigth p = some si' ∧ Rewrites [p] si si' ∧ si'.Rep p (.node p l b r) := by
  obtain ⟨n, hn, hb, hrl, hrr⟩ := h
  obtain ⟨si', hup, hre, hread⟩ := updateHeigth_of_read hn hrl hrr
  refine ⟨si', hup, hre, rfl, _, hread, hb, rfl, rfl, ?_, ?_⟩
  · exact hrl.rewrites hre fun q hq hp => hl (by rwa [← List.mem_singleton.1 hp])
  · exact hrr.rewrites hre fun q hq hp => hr (by rwa [← List.mem_singleton.1 hp])

/-! ## Rotations -/

/-- The two writes of a rotation. -/
theorem write_write {m : AVLIndexNode κ} (hp : si.read p = some n) (hq : si.read q = some m)
    (hpq : p ≠ q) (x y : AVLIndexNode κ) :
    ∃ si1 si2, si.write p x = some si1 ∧ si1.write q y = some si2 ∧ Rewrites [p, q] si si2 ∧
      si2.read p = some x ∧ si2.read q = some y := by
  obtain ⟨si1, hw1, hre1, hread1⟩ := write_of_read hp x
  have hq1 : si1.read q = some m := by rw [hre1.reads q (by simpa using hpq.symm), hq]
  obtain ⟨si2, hw2, hre2, hread2⟩ := write_of_read hq1 y
  refine ⟨si1, si2, hw1, hw2, hre1.trans hre2 (by simp) (by simp), ?_, hread2⟩
  rw [hre2.reads p (by simpa using hpq), hread1]

/-- A tree without the slots `p` and `q` does not change with them. -/
theorem Rep.rewrites_pair {x : Int} (h : si.Rep x t) (hw : Rewrites [p, q] si si')
    (hp : p ∉ t.slots) (hq : q ∉ t.slots) : si'.Rep x t :=
  h.rewrites hw fun y hy hc => by
    rcases List.mem_pair.1 hc with rfl | rfl
    · exact hp hy
    · exact hq hy

/-- `rightRotation` of a node that has a left child. -/
theorem Stale.rightRotation {a : Record κ} (h : si.Stale p (.node q A a B) b C)
    (hnd : (p :: ((AvlTree.node q A a B).slots ++ C.slots)).Nodup) :
    ∃ si', si.rightRotation p = some si' ∧ Rewrites [p, q] si si' ∧
      si'.Rep p (.node p A a (.node q B b C)) := by
  obtain ⟨n, hn, rfl, ⟨hnq, m, hm, rfl, -, -, hA, hB⟩, hC⟩ := h
  subst hnq
  simp only [AvlTree.slots_node, List.cons_append, List.nodup_cons, List.mem_cons,
    List.mem_append, not_or] at hnd
  obtain ⟨⟨hpq, ⟨hpA, hpB⟩, hpC⟩, ⟨⟨hqA, hqB⟩, hqC⟩, -⟩ := hnd
  obtain ⟨si1, si2, hw1, hw2, hre, hp2, hq2⟩ := write_write hn hm hpq
    { m with rightChildren := n.leftChildren, currentPos := p }
    { n with leftChildren := m.rightChildren, currentPos := n.leftChildren }
  -- the old root in its new slot, then the new one
  have hstale : si2.Stale n.leftChildren B n.toRecord C :=
    ⟨_, hq2, rfl, hB.rewrites_pair hre hpB hqB, hC.rewrites_pair hre hpC hqC⟩
  obtain ⟨si3, hup3, hre3, hrep3⟩ := hstale.updateHeigth hqB hqC
  have hre' : Rewrites [p, n.leftChildren] si si3 := hre.trans hre3 (by simp) (by simp)
  have hstale' : si3.Stale p A m.toRecord (.node n.leftChildren B n.toRecord C) :=
    ⟨_, (hre3.reads p (by simpa using hpq)).trans hp2, rfl, hA.rewrites_pair hre' hpA hqA, hrep3⟩
  obtain ⟨si4, hup4, hre4, hrep4⟩ := hstale'.updateHeigth hpA (by simp [hpq, hpB, hpC])
  refine ⟨si4, ?_, hre'.trans hre4 (by simp) (by simp), hrep4⟩
  simp only [AVLIndex.rightRotation, Option.bind_eq_bind, hn, hm, Option.bind_some]
  rw [hw1, Option.bind_some, hw2, Option.bind_some, hup3, Option.bind_some, hup4]

/-- `leftRotation` of a node that has a right child. -/
theorem Stale.leftRotation {a : Record κ} (h : si.Stale p A a (.node q B b C))
    (hnd : (p :: (A.slots ++ (AvlTree.node q B b C).slots)).Nodup) :
    ∃ si', si.leftRotation p = some si' ∧ Rewrites [p, q] si si' ∧
      si'.Rep p (.node p (.node q A a B) b C) := by
  obtain ⟨n, hn, rfl, hA, hnq, m, hm, rfl, -, -, hB, hC⟩ := h
  subst hnq
  rw [List.Perm.nodup_iff (List.perm_append_comm.cons _)] at hnd
  simp only [AvlTree.slots_node, List.cons_append, List.nodup_cons, List.mem_cons,
    List.mem_append, not_or] at hnd
  obtain ⟨⟨hpq, ⟨hpB, hpC⟩, hpA⟩, ⟨⟨hqB, hqC⟩, hqA⟩, -⟩ := hnd
  obtain ⟨si1, si2, hw1, hw2, hre, hp2, hq2⟩ := write_write hn hm hpq
    { m with leftChildren := n.rightChildren, currentPos := p }
    { n with rightChildren := m.leftChildren, currentPos := n.rightChildren }
  have hstale : si2.Stale n.rightChildren A n.toRecord B :=
    ⟨_, hq2, rfl, hA.rewrites_pair hre hpA hqA, hB.rewrites_pair hre hpB hqB⟩
  obtain ⟨si3, hup3, hre3, hrep3⟩ := hstale.updateHeigth hqA hqB
  have hre' : Rewrites [p, n.rightChildren] si si3 := hre.trans hre3 (by simp) (by simp)
  have hstale' : si3.Stale p (.node n.rightChildren A n.toRecord B) m.toRecord C :=
    ⟨_, (hre3.reads p (by simpa using hpq)).trans hp2, rfl, hrep3, hC.rewrites_pair hre' hpC hqC⟩
  obtain ⟨si4, hup4, hre4, hrep4⟩ := hstale'.updateHeigth (by simp [hpq, hpA, hpB]) hpC
  refine ⟨si4, ?_, hre'.trans hre4 (by simp) (by simp), hrep4⟩
  simp only [AVLIndex.leftRotation, Option.bind_eq_bind, hn, hm, Option.bind_some]
  rw [hw1, Option.bind_some, hw2, Option.bind_some, hup3, Option.bind_some, hup4]

/-! ## Balance -/

/-- A node whose left subtree has been worked on. -/
theorem stale_of_left {S : List Int} (hn : si.read p = some n) (hr : si.Rep n.rightChildren r)
    (hw : Rewrites S si si') (hp : p ∉ S) (hS : ∀ q ∈ r.slots, q ∉ S)
    (hl : si'.Rep n.leftChildren l) : si'.Stale p l n.toRecord r :=
  ⟨n, (hw.reads p hp).trans hn, rfl, hl, hr.rewrites hw hS⟩

/-- A node whose right subtree has been worked on. -/
theorem stale_of_right {S : List Int} (hn : si.read p = some n) (hl : si.Rep n.leftChildren l)
    (hw : Rewrites S si si') (hp : p ∉ S) (hS : ∀ q ∈ l.slots, q ∉ S)
    (hr : si'.Rep n.rightChildren r) : si'.Stale p l n.toRecord r :=
  ⟨n, (hw.reads p hp).trans hn, rfl, hl.rewrites hw hS, hr⟩

/-- The branch of `balance` for a node that is heavy on the left. -/
theorem balance_left (hn : si.read p = some n) (hl : si.Rep n.leftChildren l)
    (hr : si.Rep n.rightChildren r) (hnd : (p :: (l.slots ++ r.slots)).Nodup)
    (hh : 0 ≤ l.height) :
    ∃ si', (if l.factor ≤ -1 then (si.leftRotation n.leftChildren).bind (·.rightRotation p)
        else si.rightRotation p) = some si' ∧ Rewrites (p :: (l.slots ++ r.slots)) si si' ∧
      si'.Rep p (.rotateRight
        (.node p (if l.factor ≤ -1 then l.rotateLeft else l) n.toRecord r)) := by
  obtain ⟨t, A, a, B, rfl⟩ := AvlTree.exists_node_of_height hh
  by_cases hf : (AvlTree.node t A a B).factor ≤ -1
  · have hB : 0 ≤ B.height := by
      have := AvlTree.neg_one_le_height A
      simp only [AvlTree.factor] at hf
      omega
    obtain ⟨u, B1, c, B2, rfl⟩ := AvlTree.exists_node_of_height hB
    have hnd1 := (List.nodup_append.1 (List.nodup_cons.1 hnd).2).1
    have hdisj := (List.nodup_append.1 (List.nodup_cons.1 hnd).2).2.2
    have hp : p ∉ [t, u] := fun hc => (List.nodup_cons.1 hnd).1 (by
      rcases List.mem_pair.1 hc with rfl | rfl <;> simp)
    obtain ⟨si1, hrot1, hre1, hrep1⟩ := hl.stale.leftRotation (hl.1 ▸ hnd1)
    rw [hl.1] at hrot1 hre1 hrep1
    have hstale : si1.Stale p (.node t (.node u A a B1) c B2) n.toRecord r :=
      stale_of_left hn hr hre1 hp (fun q hq hc =>
        hdisj q (by rcases List.mem_pair.1 hc with rfl | rfl <;> simp) q hq rfl)
        (by rw [hl.1]; exact hrep1)
    have hperm := AvlTree.slots_rotateLeft (x := .node t A a (.node u B1 c B2))
    obtain ⟨si', hrot, hre, hrep⟩ := hstale.rightRotation
      ((List.Perm.cons p (hperm.append_right r.slots)).nodup_iff.2 hnd)
    refine ⟨si', by rw [if_pos hf, hl.1, hrot1, Option.bind_some, hrot], hre1.trans hre ?_ ?_, ?_⟩
    · intro q hq
      rcases List.mem_pair.1 hq with rfl | rfl <;> simp
    · intro q hq
      rcases List.mem_pair.1 hq with rfl | rfl <;> simp
    · rw [if_pos hf]
      exact hrep
  · rw [if_neg hf, if_neg hf]
    have hstale : si.Stale p _ n.toRecord r := ⟨n, hn, rfl, hl, hr⟩
    obtain ⟨si', hrot, hre, hrep⟩ := hstale.rightRotation hnd
    exact ⟨si', hrot, hre.mono (by simp), hrep⟩

/-- The branch of `balance` for a node that is heavy on the right. -/
theorem balance_right (hn : si.read p = some n) (hl : si.Rep n.leftChildren l)
    (hr : si.Rep n.rightChildren r) (hnd : (p :: (l.slots ++ r.slots)).Nodup)
    (hh : 0 ≤ r.height) :
    ∃ si', (if 1 ≤ r.factor then (si.rightRotation n.rightChildren).bind (·.leftRotation p)
        else si.leftRotation p) = some si' ∧ Rewrites (p :: (l.slots ++ r.slots)) si si' ∧
      si'.Rep p (.rotateLeft
        (.node p l n.toRecord (if 1 ≤ r.factor then r.rotateRight else r))) := by
  obtain ⟨t, A, a, B, rfl⟩ := AvlTree.exists_node_of_height hh
  by_cases hf : 1 ≤ (AvlTree.node t A a B).factor
  · have hA : 0 ≤ A.height := by
      have := AvlTree.neg_one_le_height B
      simp only [AvlTree.factor] at hf
      omega
    obtain ⟨u, A1, c, A2, rfl⟩ := AvlTree.exists_node_of_height hA
    have hnd1 := (List.nodup_append.1 (List.nodup_cons.1 hnd).2).2.1
    have hdisj := (List.nodup_append.1 (List.nodup_cons.1 hnd).2).2.2
    have hp : p ∉ [t, u] := fun hc => (List.nodup_cons.1 hnd).1 (by
      rcases List.mem_pair.1 hc with rfl | rfl <;> simp)
    obtain ⟨si1, hrot1, hre1, hrep1⟩ := hr.stale.rightRotation (hr.1 ▸ hnd1)
    rw [hr.1] at hrot1 hre1 hrep1
    have hstale : si1.Stale p l n.toRecord (.node t A1 c (.node u A2 a B)) :=
      stale_of_right hn hl hre1 hp (fun q hq hc =>
        hdisj q hq q (by rcases List.mem_pair.1 hc with rfl | rfl <;> simp) rfl)
        (by rw [hr.1]; exact hrep1)
    have hperm := AvlTree.slots_rotateRight (x := .node t (.node u A1 c A2) a B)
    obtain ⟨si', hrot, hre, hrep⟩ := hstale.leftRotation
      ((List.Perm.cons p (hperm.append_left l.slots)).nodup_iff.2 hnd)
    refine ⟨si', by rw [if_pos hf, hr.1, hrot1, Option.bind_some, hrot], hre1.trans hre ?_ ?_, ?_⟩
    · intro q hq
      rcases List.mem_pair.1 hq with rfl | rfl <;> simp
    · intro q hq
      rcases List.mem_pair.1 hq with rfl | rfl <;> simp
    · rw [if_pos hf]
      exact hrep
  · rw [if_neg hf, if_neg hf]
    have hstale : si.Stale p l n.toRecord _ := ⟨n, hn, rfl, hl, hr⟩
    obtain ⟨si', hrot, hre, hrep⟩ := hstale.leftRotation hnd
    exact ⟨si', hrot, hre.mono (by simp), hrep⟩

/-- `balance` of a node that is out of balance does to the tree what `rebalance` does, whatever the
height and the position are that the node holds. -/
theorem Stale.balance (h : si.Stale p l b r) (hnd : (p :: (l.slots ++ r.slots)).Nodup)
    (hh : 1 < l.height - r.height ∨ l.height - r.height < -1) :
    ∃ si', si.balance p = some si' ∧ Rewrites (p :: (l.slots ++ r.slots)) si si' ∧
      si'.Rep p (AvlTree.rebalance p l b r) := by
  have hbal := h.balancingFactor
  obtain ⟨n, hn, rfl, hl, hr⟩ := h
  have hlge := AvlTree.neg_one_le_height l
  have hrge := AvlTree.neg_one_le_height r
  unfold AVLIndex.balance AvlTree.rebalance
  rw [if_neg (ne_neg_one_of_read hn), hn]
  simp only [Option.bind_eq_bind, Option.bind_some, hbal, hl.balancingFactor, hr.balancingFactor]
  by_cases h1 : 1 < l.height - r.height
  · rw [if_pos h1, if_pos h1]
    exact balance_left hn hl hr hnd (by omega)
  · have h2 := hh.resolve_left h1
    rw [if_neg h1, if_pos h2, if_neg h1, if_pos h2]
    exact balance_right hn hl hr hnd (by omega)

/-- A node in balance only gets its height and its position. -/
theorem updateBalance_of_read (hn : si.read p = some n) (hl : si.Rep n.leftChildren l)
    (hr : si.Rep n.rightChildren r) (hpl : p ∉ l.slots) (hpr : p ∉ r.slots)
    (h1 : -1 ≤ l.height - r.height) (h2 : l.height - r.height ≤ 1) :
    ∃ si', si.updateBalance p = some si' ∧ Rewrites [p] si si' ∧
      si'.read p = some { n with height := 1 + max l.height r.height, currentPos := p } := by
  obtain ⟨si', hup, hre, hread⟩ := updateHeigth_of_read hn hl hr
  have hstale : si'.Stale p l n.toRecord r := by
    refine ⟨_, hread, rfl, hl.rewrites hre fun q hq hc => hpl ?_, hr.rewrites hre fun q hq hc => hpr ?_⟩
    · rwa [← List.mem_singleton.1 hc]
    · rwa [← List.mem_singleton.1 hc]
  refine ⟨si', ?_, hre, hread⟩
  have hbal : si'.isBalanced p = some true := by
    rw [isBalanced, if_neg (ne_neg_one_of_read hn), hstale.balancingFactor, Option.map_some]
    simp only [show ¬ (l.height - r.height < -1 ∨ 1 < l.height - r.height) by omega, decide_false,
      Bool.not_false]
  simp [updateBalance, hup, hbal]

/-- The end of `insert` and `erase` puts the node right: its height, its position and its
balance. -/
theorem Stale.updateBalance (h : si.Stale p l b r) (hnd : (p :: (l.slots ++ r.slots)).Nodup) :
    ∃ si', si.updateBalance p = some si' ∧ Rewrites (p :: (l.slots ++ r.slots)) si si' ∧
      si'.Rep p (AvlTree.rebalance p l b r) := by
  have hp := (List.nodup_cons.1 hnd).1
  obtain ⟨si1, hup, hre1, hrep1⟩ := h.updateHeigth (fun hc => hp (List.mem_append_left _ hc))
    (fun hc => hp (List.mem_append_right _ hc))
  have hpos : p ≠ -1 := fun hc => by cases (hrep1.eq_neg_one_iff).1 hc
  have hbal : si1.isBalanced p =
      some !(l.height - r.height < -1 ∨ 1 < l.height - r.height) := by
    rw [isBalanced, if_neg hpos, hrep1.stale.balancingFactor]
    rfl
  by_cases hb : l.height - r.height < -1 ∨ 1 < l.height - r.height
  · obtain ⟨si', hbalance, hre, hrep⟩ := hrep1.stale.balance hnd hb.symm
    refine ⟨si', ?_, hre1.trans hre (by simp) (fun _ h => h), hrep⟩
    simp [AVLIndex.updateBalance, hup, hbal, hb, hbalance]
  · refine ⟨si1, by simp [AVLIndex.updateBalance, hup, hbal, hb], hre1.mono (by simp), ?_⟩
    rw [AvlTree.rebalance, if_neg (fun h => hb (.inr h)), if_neg (fun h => hb (.inl h))]
    exact hrep1

end AVLIndex

end Rdbms
