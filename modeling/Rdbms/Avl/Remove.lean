import Rdbms.Avl.Erase

/-!
# `remove`

The deletion of a key whose node has two children, and what `remove` does to a well-formed file.
-/

namespace Rdbms

namespace AVLIndex
variable {κ : Type} {si si' : AVLIndex κ} {c p q x : Int} {n d tempNode : AVLIndexNode κ}
  {b v y m : Record κ} {t t' T l r : AvlTree Int (Record κ)} {F xs : List Int} {k : κ}

/-! ## Subtrees of the file -/

/-- A subtree is where its root's slot is. -/
theorem Rep.sub (h : si.Rep p t) (hsub : AvlTree.Sub (.node c l b r) t) :
    si.Rep c (.node c l b r) := by
  suffices ∀ {t : AvlTree Int (Record κ)} {p : Int}, si.Rep p t →
      AvlTree.Sub (.node c l b r) t → si.Rep c (.node c l b r) from this h hsub
  intro t p h hsub
  induction hsub generalizing p with
  | refl =>
    obtain rfl : p = c := h.1
    exact h
  | left _ ih =>
    obtain ⟨-, n, -, -, -, -, hl, -⟩ := h
    exact ih hl
  | right _ ih =>
    obtain ⟨-, n, -, -, -, -, -, hr⟩ := h
    exact ih hr

/-- A node that is in balance is left as it is. -/
theorem Rep.updateBalance_self (h : si.Rep p t) (hnd : t.slots.Nodup) (hbal : t.Balanced)
    (hc : c ∈ t.slots) : ∃ si', si.updateBalance c = some si' ∧ Rewrites [] si si' := by
  obtain ⟨l, b, r, hsub⟩ := AvlTree.exists_sub_of_mem hc
  obtain ⟨-, n, hn, rfl, hpos, hheight, hl, hr⟩ := h.sub hsub
  have hc := (List.nodup_cons.1 (hsub.sublist_slots.nodup hnd)).1
  obtain ⟨h1, h2, -⟩ := hsub.balanced hbal
  obtain ⟨si', hup, hre, hread⟩ := updateBalance_of_read hn hl hr
    (fun hx => hc (List.mem_append_left _ hx)) (fun hx => hc (List.mem_append_right _ hx)) h1 h2
  refine ⟨si', hup, { hre with reads := fun q _ => ?_ }⟩
  by_cases hq : q = c
  · subst hq
    rw [hread, hn]
    congr 1
    cases n
    simp_all [AvlTree.height]
  · exact hre.reads q (by simpa using hq)

/-- The nodes of the tree. -/
theorem Rep.read_of_mem (h : si.Rep p t) (hc : c ∈ t.slots) :
    ∃ n, si.read c = some n ∧ n.toRecord ∈ t.toList := by
  obtain ⟨l, b, r, hsub⟩ := AvlTree.exists_sub_of_mem hc
  obtain ⟨-, n, hn, rfl, -⟩ := h.sub hsub
  exact ⟨n, hn, hsub.mem (by simp)⟩

variable [KeyType κ]

/-- A key that is not there is replaced by nothing. -/
theorem map_eq_self_of_ne (h : ∀ a ∈ t.toList, a.data ≠ k) :
    (t.map fun a => if a.data = k then v else a) = t :=
  AvlTree.map_eq_self fun a ha => if_neg (h a ha)

/-- A new record in the node of the key `k`. -/
theorem Rep.replace (hn : si.read c = some n) (hk : n.data = k) (hre : Rewrites [c] si si')
    (hread : si'.read c = some { n with toRecord := v, currentPos := c }) :
    ∀ {t : AvlTree Int (Record κ)} {p : Int}, si.Rep p t → t.slots.Nodup →
      SortedBy (·.data) t.toList → c ∈ t.slots →
      si'.Rep p (t.map fun a => if a.data = k then v else a)
  | .nil, _, _, _, _, hc => nomatch hc
  | .node s l b r, p, h, hnd, hsorted, hc => by
    obtain ⟨rfl, m, hm, rfl, hpos, hheight, hl, hr⟩ := h
    obtain ⟨hsl, hsr, hlb, hbr⟩ := AvlTree.sorted_node.1 hsorted
    obtain ⟨hp, hlr⟩ := List.nodup_cons.1 hnd
    obtain ⟨hndl, hndr, hdisj⟩ := List.nodup_append.1 hlr
    rw [AvlTree.slots_node, List.mem_cons, List.mem_append] at hc
    rcases hc with rfl | hc | hc
    · obtain rfl : n = m := Option.some.inj (hn.symm.trans hm)
      rw [AvlTree.map, if_pos hk, map_eq_self_of_ne fun a ha => hk ▸ (hlb a ha).ne,
        map_eq_self_of_ne fun a ha => hk ▸ (hbr a ha).ne']
      have hnot : ∀ q ∈ l.slots ++ r.slots, q ∉ [c] := fun q hq hc =>
        hp (List.mem_singleton.1 hc ▸ hq)
      exact ⟨rfl, _, hread, rfl, rfl, hheight,
        hl.rewrites hre fun q hq => hnot q (List.mem_append_left _ hq),
        hr.rewrites hre fun q hq => hnot q (List.mem_append_right _ hq)⟩
    · have hpc : p ∉ [c] := fun h => hp (List.mem_singleton.1 h ▸ List.mem_append_left _ hc)
      obtain ⟨n', hn', hmem⟩ := hl.read_of_mem hc
      obtain rfl : n = n' := Option.some.inj (hn.symm.trans hn')
      have hlt : k < m.data := hk ▸ hlb _ hmem
      rw [AvlTree.map, if_neg hlt.ne', map_eq_self_of_ne fun a ha => (hlt.trans (hbr a ha)).ne']
      refine ⟨rfl, m, (hre.reads p hpc).trans hm, rfl, hpos, by simpa using hheight,
        hl.replace hn hk hre hread hndl hsl hc, hr.rewrites hre fun q hq hqc => ?_⟩
      exact hdisj c hc q hq (List.mem_singleton.1 hqc).symm
    · have hpc : p ∉ [c] := fun h => hp (List.mem_singleton.1 h ▸ List.mem_append_right _ hc)
      obtain ⟨n', hn', hmem⟩ := hr.read_of_mem hc
      obtain rfl : n = n' := Option.some.inj (hn.symm.trans hn')
      have hlt : m.data < k := hk ▸ hbr _ hmem
      rw [AvlTree.map, if_neg hlt.ne, map_eq_self_of_ne fun a ha => ((hlb a ha).trans hlt).ne]
      refine ⟨rfl, m, (hre.reads p hpc).trans hm, rfl, hpos, by simpa using hheight,
        hl.rewrites hre fun q hq hqc => ?_, hr.replace hn hk hre hread hndr hsr hc⟩
      exact hdisj q hq c hc (List.mem_singleton.1 hqc)

/-! ## The helpers of `erase` -/

omit [KeyType κ] in
/-- `maxNode` finds the last node of a tree. -/
theorem maxNode_returns : ∀ {t : AvlTree Int (Record κ)} {p : Int} {xs : List (Record κ)},
    si.Rep p t → t.toList = xs ++ [m] →
    ∃ q n, Returns (si.maxNode · p) (.ok q) ∧ si.read q = some n ∧ n.toRecord = m
  | .nil, _, _, _, h => by simp at h
  | .node s l b r, p, xs, hrep, h => by
    obtain ⟨rfl, n, hn, rfl, -, -, hl, hr⟩ := hrep
    rw [AvlTree.toList_node] at h
    rcases List.eq_nil_or_concat r.toList with hnil | ⟨ys, a, hys⟩
    · have hr' : n.rightChildren = -1 := hr.eq_neg_one_iff.2 (by
        cases r with
        | nil => rfl
        | node => simp at hnil)
      rw [hnil] at h
      refine ⟨p, n, .of_succ (.of_eq fun fuel => ?_), hn,
        by simpa using (List.append_inj' h rfl).2⟩
      rw [maxNode, if_neg (ne_neg_one_of_read hn), hn]
      simp only [Option.bind_eq_bind, Option.bind_some, if_pos hr']
    · have hr' : n.rightChildren ≠ -1 := fun e => by
        rw [hr.eq_neg_one_iff.1 e] at hys
        simp at hys
      rw [List.concat_eq_append] at hys
      rw [hys, ← List.cons_append, ← List.append_assoc] at h
      have ham : a = m := by simpa using (List.append_inj' h rfl).2
      obtain ⟨q, n', hret, hread, hm⟩ := maxNode_returns hr (ham ▸ hys)
      refine ⟨q, n', .of_succ (hret.congr fun fuel => ?_), hread, hm⟩
      rw [maxNode, if_neg (ne_neg_one_of_read hn), hn]
      simp only [Option.bind_eq_bind, Option.bind_some, if_neg hr']

/-- `fixValue` writes the record over that of the key's node. -/
theorem fixValue_returns (tempNode : AVLIndexNode κ) : ∀ {t : AvlTree Int (Record κ)} {p : Int},
    si.Rep p t →
    SortedBy (·.data) t.toList → y ∈ t.toList → y.data = k →
    ∃ q n si', Returns (si.fixValue · p k tempNode) si' ∧ q ∈ t.slots ∧ si.read q = some n ∧
      n.data = k ∧ Rewrites [q] si si' ∧
      si'.read q = some { n with toRecord := tempNode.toRecord, currentPos := q }
  | .nil, _, _, _, h, _ => by simp at h
  | .node s l b r, p, hrep, hsorted, hy, hk => by
    obtain ⟨rfl, n, hn, rfl, -, -, hl, hr⟩ := hrep
    obtain ⟨hsl, hsr, hlb, hbr⟩ := AvlTree.sorted_node.1 hsorted
    rw [AvlTree.toList_node, List.mem_append, List.mem_cons] at hy
    rcases hy with hy | rfl | hy
    · have hlt : k < n.data := hk ▸ hlb y hy
      obtain ⟨q, m, si', hret, hq, hm⟩ := fixValue_returns tempNode hl hsl hy hk
      refine ⟨q, m, si', .of_succ (hret.congr fun fuel => ?_), by simp [hq], hm⟩
      rw [fixValue, if_neg (ne_neg_one_of_read hn), hn]
      simp only [Option.bind_eq_bind, Option.bind_some, if_pos hlt]
    · obtain ⟨si', hw, hre, hread⟩ := write_of_read hn
        { n with toRecord := tempNode.toRecord, currentPos := p }
      have hk' : n.data = k := hk
      refine ⟨p, n, si', .of_succ (.of_eq fun fuel => ?_), by simp, hn, hk, hre, hread⟩
      rw [fixValue, if_neg (ne_neg_one_of_read hn), hn]
      simp only [Option.bind_eq_bind, Option.bind_some, if_neg hk'.not_lt, if_neg hk'.not_gt, hw]
    · have hlt : n.data < k := hk ▸ hbr y hy
      obtain ⟨q, m, si', hret, hq, hm⟩ := fixValue_returns tempNode hr hsr hy hk
      refine ⟨q, m, si', .of_succ (hret.congr fun fuel => ?_), by simp [hq], hm⟩
      rw [fixValue, if_neg (ne_neg_one_of_read hn), hn]
      simp only [Option.bind_eq_bind, Option.bind_some, if_neg hlt.not_gt, if_pos hlt]

/-! ## A node with two children -/

/-- `erase` at a node of the key that has two children. -/
theorem erase_of_two {q : Int} {n' : AVLIndexNode κ} {res : Erased κ} {si1 si2 : AVLIndex κ}
    {removed : Bool} (hn : si.read c = some n) (hk : n.data = k) (hl : n.leftChildren ≠ -1)
    (hr : n.rightChildren ≠ -1) (hmax : Returns (si.maxNode · n.leftChildren) (.ok q))
    (htemp : si.read q = some tempNode)
    (herase : Returns (erase · si si.header.rootPointer (-1) n tempNode.data)
      (.ok (removed, n', si1)))
    (hfix : Returns (si1.fixValue · c k tempNode) si2) (hend : eraseEnd c (true, n, si2) = some res) :
    Returns (erase · si c p d k) (.ok res) := by
  refine .of_succ ?_
  filter_upwards [hmax, herase, hfix] with fuel h1 h2 h3
  rw [erase, if_neg (ne_neg_one_of_read hn), hn]
  subst hk
  simp only [Option.bind_eq_bind, Option.bind_some, lt_irrefl, if_false, hl, hr, false_and, h1,
    htemp, h2, h3, hend, Option.map_some]

/-- A tree with one key less, which the file holds after `erase`. -/
structure Erases (si : AVLIndex κ) (t : AvlTree Int (Record κ)) (k m : κ)
    (t' : AvlTree Int (Record κ)) (x : Int) (si' : AVLIndex κ) : Prop where
  cut : Cut si t.slots t m t' x si.header.rootPointer si'
  balanced : t'.Balanced
  toList : t'.toList = t.toList.filter (·.data ≠ k)

/-- On the way back, a node of the tree whose slot is not the one that has become free. -/
theorem Erases.eraseEnd {m : κ} (h : Erases si t k m t' x si') (hnd : t.slots.Nodup)
    (hc : c ∈ t.slots) (hn : si.read c = some n) (hne : n.data ≠ m) (n' : AVLIndexNode κ) :
    ∃ si'', eraseEnd c (true, n', si') = some (true, n', si'') ∧ Erases si t k m t' x si'' := by
  have hnd' := List.nodup_cons.1 (h.cut.slots.nodup_iff.2 hnd)
  have hc' : c ∈ t'.slots := by
    rcases List.mem_cons.1 (h.cut.slots.mem_iff.2 hc) with rfl | hc'
    · exact absurd (h.cut.key n hn) hne
    · exact hc'
  obtain ⟨si'', hup, hre⟩ := h.cut.rep.updateBalance_self hnd'.2 h.balanced hc'
  refine ⟨si'', by rw [AVLIndex.eraseEnd, hup, Option.map_some], ⟨⟨h.cut.key, ?_, ?_, h.cut.slots,
    ?_⟩, h.balanced, h.toList⟩⟩
  · exact h.cut.rewrites.trans hre (by simp) (by simp)
  · exact h.cut.rep.rewrites hre (by simp)
  · rw [hre.reads x (by simp)]
    exact h.cut.freed

omit [KeyType κ] in
/-- The node in the slot of a subtree that `erase` has gone through. -/
theorem Rep.sub_rebalance (h : si.Rep p t) (hsub : AvlTree.Sub (.rebalance c l b r) t) :
    si.Rep c (.rebalance c l b r) := by
  obtain ⟨l', b', r', heq⟩ := AvlTree.exists_rebalance_eq (s := c) (l := l) (a := b) (r := r)
  rw [heq] at hsub ⊢
  exact h.sub hsub

/-- `erase` at the node of the key: the predecessor is taken out of the tree `T`, then its record
is copied. -/
theorem erase_here_two (hT : si.Rep si.header.rootPointer T) (hnd : T.slots.Nodup)
    (hbal : T.Balanced) (hsorted : SortedBy (·.data) T.toList)
    (hsub : AvlTree.Sub (.node c l b r) T) (hl : l ≠ .nil) (hr : r ≠ .nil) :
    ∃ m ∈ l.toList, ∃ x n' si' T', Returns (erase · si c p d b.data) (.ok (true, n', si')) ∧
      Erases si T b.data m.data T' x si' := by
  obtain ⟨-, n, hn, rfl, -, -, hln, hrn⟩ := hT.sub hsub
  obtain ⟨xs, m, hlm⟩ : ∃ xs m, l.toList = xs ++ [m] := by
    rcases List.eq_nil_or_concat l.toList with h | ⟨xs, m, h⟩
    · cases l with
      | nil => exact absurd rfl hl
      | node => simp at h
    · exact ⟨xs, m, by simpa using h⟩
  have hm : m ∈ l.toList := by simp [hlm]
  have hmx : m ∈ (AvlTree.node c l n.toRecord r).toList := by simp [hm]
  have hlt : m.data < n.data := (AvlTree.sorted_node.1 (hsub.sorted hsorted)).2.2.1 m hm
  obtain ⟨q, tempNode, hmax, htemp, rfl⟩ := maxNode_returns hln hlm
  obtain ⟨hthinx, hthinT⟩ := AvlTree.thin_of_left hsub hsorted hlm
  have he : Erasable tempNode.data T :=
    ⟨hnd, hbal, hsorted, List.mem_map_of_mem (f := (·.data)) (hsub.mem hmx), hthinT⟩
  have hroot : ∀ n', si.read si.header.rootPointer = some n' → n'.data ≠ tempNode.data := by
    intro n' hn'
    cases T with
    | nil => exact nomatch hsub
    | node u A a B =>
      obtain ⟨-, n0, hn0, rfl, -⟩ := hT
      obtain rfl : n' = n0 := Option.some.inj (hn'.symm.trans hn0)
      exact hsub.root_ne hsorted hm
  obtain ⟨x, n1, si1, herase, hcut⟩ := erase_root (p := -1) (d := n) hT he hroot
  -- what is below the slot `c` now has the key still
  have hsub1 := hsub.erase hsorted hbal hmx hthinx
  rw [AvlTree.erase_of_gt (show tempNode.toRecord.data < n.toRecord.data from hlt)] at hsub1
  have hsorted1 : SortedBy (·.data) (T.erase (·.data) tempNode.data).toList := by
    rw [AvlTree.toList_erase hsorted hthinT]
    exact hsorted.filter _
  have hbal1 := (AvlTree.erase_balanced hbal hthinT).1
  have hnd1 := List.nodup_cons.1 (hcut.slots.nodup_iff.2 hnd)
  obtain ⟨c2, n2, si2, hfix, hc2, hn2, hk2, hre2, hread2⟩ := fixValue_returns
    tempNode (k := n.data) (hcut.rep.sub_rebalance hsub1) (hsub1.sorted hsorted1)
    (by simp) rfl
  have hc2' := hsub1.sublist_slots.subset hc2
  have hslots : (x :: ((T.erase (·.data) tempNode.data).map fun a =>
      if a.data = n.data then tempNode.toRecord else a).slots).Perm T.slots := by
    rw [AvlTree.slots_map]
    exact hcut.slots
  have hE : Erases si T n.data tempNode.data ((T.erase (·.data) tempNode.data).map fun a =>
      if a.data = n.data then tempNode.toRecord else a) x si2 := by
    refine ⟨⟨hcut.key, ?_, hcut.rep.replace hn2 hk2 hre2 hread2 hnd1.2 hsorted1 hc2', hslots, ?_⟩,
      AvlTree.map_balanced hbal1, AvlTree.toList_erase_replace hsub hsorted hlm⟩
    · refine hcut.rewrites.trans hre2 (fun _ h => h) fun y hy => ?_
      rw [List.mem_singleton.1 hy]
      exact hcut.slots.subset (.tail _ hc2')
    · rw [hre2.reads x fun h => hnd1.1 (List.mem_singleton.1 h ▸ hc2')]
      exact hcut.freed
  obtain ⟨si', hend, hE'⟩ := hE.eraseEnd hnd (hsub.sublist_slots.subset (by simp)) hn hlt.ne' n
  exact ⟨_, hm, x, n, si', _, erase_of_two hn rfl (mt hln.eq_neg_one_iff.1 hl)
    (mt hrn.eq_neg_one_iff.1 hr) hmax htemp herase hfix hend, hE'⟩

/-- `erase` from a node of the tree `T` down to a key whose node has two children. -/
theorem erase_two (hT : si.Rep si.header.rootPointer T) (hnd : T.slots.Nodup) (hbal : T.Balanced)
    (hsorted : SortedBy (·.data) T.toList) :
    ∀ {t : AvlTree Int (Record κ)} {c p : Int} {d : AVLIndexNode κ}, AvlTree.Sub t T →
      si.Rep c t → ¬ t.Thin (·.data) k →
      ∃ m ∈ t.toList, ∃ x n' si' T', Returns (erase · si c p d k) (.ok (true, n', si')) ∧
        Erases si T k m.data T' x si'
  | .nil, _, _, _, _, _, hthin => absurd trivial hthin
  | .node u l b r, c, p, d, hsub, h, hthin => by
    obtain ⟨rfl, n, hn, rfl, -, -, hl, hr⟩ := h
    have hc : c ∈ T.slots := hsub.sublist_slots.subset (by simp)
    obtain ⟨-, -, hlb, hbr⟩ := AvlTree.sorted_node.1 (hsub.sorted hsorted)
    rcases lt_trichotomy n.data k with hlt | rfl | hgt
    · rw [AvlTree.thin_of_lt (show n.toRecord.data < k from hlt)] at hthin
      obtain ⟨m, hm, x, n', si1, T', hret, hE⟩ := erase_two hT hnd hbal hsorted (p := c) (d := n)
        ((AvlTree.Sub.right .refl).trans hsub) hr hthin
      obtain ⟨si', hend, hE'⟩ := hE.eraseEnd hnd hc hn (hbr m hm).ne n'
      exact ⟨m, by simp [hm], x, n', si', T', erase_right hn hlt hret hend, hE'⟩
    · rw [AvlTree.thin_of_eq rfl, not_or] at hthin
      obtain ⟨m, hm, hE⟩ := erase_here_two (p := p) (d := d) hT hnd hbal hsorted hsub hthin.1
        hthin.2
      exact ⟨m, by simp [hm], hE⟩
    · rw [AvlTree.thin_of_gt (show k < n.toRecord.data from hgt)] at hthin
      obtain ⟨m, hm, x, n', si1, T', hret, hE⟩ := erase_two hT hnd hbal hsorted (p := c) (d := n)
        ((AvlTree.Sub.left .refl).trans hsub) hl hthin
      obtain ⟨si', hend, hE'⟩ := hE.eraseEnd hnd hc hn (hlb m hm).ne' n'
      exact ⟨m, by simp [hm], x, n', si', T', erase_left hn hgt hret hend, hE'⟩

/-! ## A key that does not occur -/

/-- A key that is not there is looked for, and nothing changes. -/
theorem erase_absent : ∀ {t : AvlTree Int (Record κ)} {c p : Int} {d : AVLIndexNode κ},
    si.Rep c t → (∀ y ∈ t.toList, y.data ≠ k) →
    ∃ n', Returns (erase · si c p d k) (.ok (false, n', si))
  | .nil, c, p, d, h, _ => ⟨d, .of_succ (.of_eq fun fuel => by rw [erase, if_pos (Rep.nil_iff.1 h)])⟩
  | .node u l b r, c, p, d, h, hk => by
    obtain ⟨rfl, n, hn, rfl, -, -, hl, hr⟩ := h
    rcases lt_or_gt_of_ne (hk n.toRecord (by simp)) with hlt | hgt
    · obtain ⟨n', hret⟩ := erase_absent (p := c) (d := n) hr fun y hy => hk y (by simp [hy])
      exact ⟨n', erase_right hn hlt hret rfl⟩
    · obtain ⟨n', hret⟩ := erase_absent (p := c) (d := n) hl fun y hy => hk y (by simp [hy])
      exact ⟨n', erase_left hn hgt hret rfl⟩

/-! ## `remove` -/

/-- The key is in the root, and the root has at most one child. -/
def AtThinRoot (si : AVLIndex κ) (k : κ) : Prop :=
  ∃ n, si.read si.header.rootPointer = some n ∧ n.data = k ∧
    (n.leftChildren = -1 ∨ n.rightChildren = -1)

/-- `remove` reports the position in the node that `erase` hands up. -/
theorem remove_returns {removed : Bool}
    (h : Returns (erase · si si.header.rootPointer (-1) default k) (.ok (removed, n, si'))) :
    Returns (si.remove · k) (.ok [n.rawPos], si') := h.map _

/-- The freed slot goes to the front of the list. -/
theorem WellFormed.of_erases {m : κ} (h : si.WellFormed t F) (he : Erases si t k m t' x si') :
    si'.WellFormed t' (x :: F) where
  rep := by
    rw [he.cut.rewrites.header]
    exact he.cut.rep
  sorted := by
    rw [he.toList]
    exact h.sorted.filter _
  balanced := he.balanced
  free := by
    obtain ⟨n, hn, hnext⟩ := he.cut.freed
    rw [he.cut.rewrites.header]
    refine ⟨rfl, n, hn, ?_⟩
    rw [hnext]
    exact h.free.congr fun q hq => he.cut.rewrites.reads q fun hc =>
      (List.nodup_append.1 h.nodup).2.2 q hc q hq rfl
  slots := by
    rw [fileSlots_congr (show si'.nodes.length = si.nodes.length from he.cut.rewrites.length)]
    exact List.perm_middle.trans ((he.cut.slots.append_right F).trans h.slots)
  root := by
    have hlen : si'.nodes = [] ↔ si.nodes = [] := by
      rw [← List.length_eq_zero_iff, ← List.length_eq_zero_iff, he.cut.rewrites.length]
      rfl
    rw [he.cut.rewrites.header, show (si.freeHead x).header.rootPointer = _ from h.root]
    exact if_congr hlen.symm rfl rfl
  file := by
    rw [he.cut.rewrites.header, he.cut.rewrites.fileHeader]
    rfl

/-- `erase` of a stored key, unless the root would have to move. -/
theorem WellFormed.erases (h : si.WellFormed t F) (hmem : k ∈ t.toList.map (·.data))
    (hk : ¬ si.AtThinRoot k) :
    ∃ m x n si' t', Returns (erase · si si.header.rootPointer (-1) default k) (.ok (true, n, si')) ∧
      Erases si t k m t' x si' := by
  have hnd := (List.nodup_append.1 h.nodup).1
  by_cases hthin : t.Thin (·.data) k
  · have hroot : ∀ n, si.read si.header.rootPointer = some n → n.data ≠ k := by
      intro n hn hnk
      refine hk ⟨n, hn, hnk, ?_⟩
      cases t with
      | nil => exact nomatch hmem
      | node u l b r =>
        obtain ⟨-, n', hn', rfl, -, -, hl, hr⟩ := h.rep
        obtain rfl : n = n' := Option.some.inj (hn.symm.trans hn')
        exact ((AvlTree.thin_of_eq hnk).1 hthin).imp hl.eq_neg_one_iff.2 hr.eq_neg_one_iff.2
    obtain ⟨x, n, si', hret, hcut⟩ := erase_root (p := -1) (d := default) h.rep
      ⟨hnd, h.balanced, h.sorted, hmem, hthin⟩ hroot
    exact ⟨k, x, n, si', _, hret, hcut, (AvlTree.erase_balanced h.balanced hthin).1,
      AvlTree.toList_erase h.sorted hthin⟩
  · obtain ⟨m, -, x, n, si', t', hret, he⟩ := erase_two (p := -1) (d := default) h.rep hnd
      h.balanced h.sorted .refl h.rep hthin
    exact ⟨m.data, x, n, si', t', hret, he⟩

/-- `remove` of a key that is not stored. -/
theorem WellFormed.remove_absent (h : si.WellFormed t F) (hk : k ∉ t.toList.map (·.data)) :
    ∃ pos, Returns (si.remove · k) (.ok pos, si) := by
  obtain ⟨n, hret⟩ := erase_absent (k := k) (p := -1) (d := default) h.rep fun y hy hyk =>
    hk (List.mem_map.2 ⟨y, hy, hyk⟩)
  exact ⟨_, remove_returns hret⟩

/-- `remove` takes the key out of the tree, whatever its place, unless the root would have to
move. -/
theorem WellFormed.remove (h : si.WellFormed t F) (hk : ¬ si.AtThinRoot k) :
    ∃ pos si' t' F', Returns (si.remove · k) (.ok pos, si') ∧ si'.WellFormed t' F' ∧
      si'.pk = si.pk ∧ t'.toList = t.toList.filter (·.data ≠ k) := by
  by_cases hmem : k ∈ t.toList.map (·.data)
  · obtain ⟨m, x, n, si', t', hret, he⟩ := h.erases hmem hk
    exact ⟨_, si', t', _, remove_returns hret, h.of_erases he, he.cut.rewrites.pk, he.toList⟩
  · obtain ⟨pos, hret⟩ := h.remove_absent hmem
    refine ⟨pos, si, t, F, hret, h, rfl, (List.filter_eq_self.2 fun y hy => ?_).symm⟩
    simpa using fun e => hmem (List.mem_map.2 ⟨y, hy, e⟩)

/-- On every well-formed file. A stored key whose node has a parent or two children: `remove` comes
back with a well-formed file, one slot has gone from the tree to the head of the free list, the root
is where it was, and the records of the other keys are as before. A key that is not stored: `remove`
comes back and no file changes. -/
theorem remove_wellFormed (h : si.WellFormed t F) (k : κ) :
    (k ∈ t.toList.map (·.data) → ¬ si.AtThinRoot k →
      ∃ pos si' t' x, Returns (si.remove · k) (.ok pos, si') ∧ si'.WellFormed t' (x :: F) ∧
        si'.header = { si.header with lastDelete := x } ∧ (x :: t'.slots).Perm t.slots ∧
        t'.toList = t.toList.filter (·.data ≠ k) ∧ si'.pk = si.pk ∧
        si'.duplicatesFile = si.duplicatesFile) ∧
    (k ∉ t.toList.map (·.data) → ∃ pos, Returns (si.remove · k) (.ok pos, si)) := by
  refine ⟨fun hmem hk => ?_, h.remove_absent⟩
  obtain ⟨m, x, n, si', t', hret, he⟩ := h.erases hmem hk
  exact ⟨_, si', t', x, remove_returns hret, h.of_erases he, he.cut.rewrites.header, he.cut.slots,
    he.toList, he.cut.rewrites.pk, he.cut.rewrites.duplicatesFile⟩

/-- A root with two children. -/
theorem remove_wellFormed_sample : ∃ si si' : AVLIndex Int, ∃ t' x pos,
    Returns (si.remove · 5) (.ok pos, si') ∧ si'.WellFormed t' [x] := by
  let si : AVLIndex Int :=
    { pk := false, header := ⟨32, -1⟩, fileHeader := ⟨32, -1⟩, duplicatesFile := []
      nodes := [⟨⟨5, 0, -1⟩, 32, 152, 272, -1, 1⟩, ⟨⟨3, 64, -1⟩, 152, -1, -1, -1, 0⟩,
        ⟨⟨7, 128, -1⟩, 272, -1, -1, -1, 0⟩] }
  have hwf : si.WellFormed (.node 32 (.node 152 .nil ⟨3, 64, -1⟩ .nil) ⟨5, 0, -1⟩
      (.node 272 .nil ⟨7, 128, -1⟩ .nil)) [] := by
    refine ⟨⟨rfl, _, rfl, rfl, rfl, rfl, ⟨rfl, _, rfl, rfl, rfl, rfl, rfl, rfl⟩,
      ⟨rfl, _, rfl, rfl, rfl, rfl, rfl, rfl⟩⟩, ?_, by simp [AvlTree.Balanced], rfl, by decide, rfl, rfl⟩
    simp [SortedBy]
  have hroot : ¬ si.AtThinRoot 5 := by
    rintro ⟨n, hn, -, hc⟩
    cases hn
    exact absurd hc (by decide)
  obtain ⟨pos, si', t', x, hret, hwf', -⟩ := (remove_wellFormed hwf 5).1 (by simp) hroot
  exact ⟨si, si', t', x, pos, hret, hwf'⟩

end AVLIndex

end Rdbms
