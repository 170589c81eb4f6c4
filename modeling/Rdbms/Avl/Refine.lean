import Rdbms.Avl.Stream

/-!
# The AVL index on a good stream, and on one that has failed

On a good stream the functions of the index do what those without a stream do, as long as these
have a result (`insert_of`, `searchNode_of`, `erase_of`), and the stream stays good. On one that has
failed `insert` writes no node (`insert_failed`). On any stream a lookup leaves the index as it is,
and so does an `insert` that throws.
-/

namespace Rdbms

namespace AVLStream
variable {κ : Type} [KeyType κ]

/-! ## A good stream -/

variable {si si' : AVLIndex κ} {m k : κ} {p q h : Int} {n c iNode : AVLIndexNode κ} {b : Bool}
  {fuel : Nat}

section
omit [KeyType κ]

/-- A read that gives a node gives it through a good stream, and leaves the stream good. -/
theorem read_of (hr : si.read p = some n) (c : AVLIndexNode κ) :
    (mk si true m).read p c = (n, mk si true m) := by
  simp only [read, if_true, hr]

/-- A write goes through. -/
theorem write_of (hw : si.write p n = some si') :
    (mk si true m).write p n = mk si' true m := by
  simp only [write, if_true, hw]

/-- `height` on a good stream. -/
theorem height_of (hh : si.height p = some h) :
    (mk si true m).height p = (h, mk si true m) := by
  unfold AVLIndex.height at hh
  unfold height
  split_ifs at hh ⊢
  · cases hh
    rfl
  · obtain ⟨node, hread, rfl⟩ := Option.map_eq_some_iff.1 hh
    rw [read_of hread]

/-- `updateHeigth` on a good stream. -/
theorem updateHeigth_of (hu : si.updateHeigth p = some si') :
    (mk si true m).updateHeigth p = mk si' true m := by
  unfold AVLIndex.updateHeigth at hu
  unfold updateHeigth
  split_ifs at hu ⊢
  · cases hu
    rfl
  · simp only [Option.bind_eq_bind, Option.bind_eq_some_iff] at hu
    obtain ⟨node, hread, hl, hleft, hr, hright, hw⟩ := hu
    simp only [read_of hread, height_of hleft, height_of hright]
    exact write_of hw

/-- `balancingFactor` on a good stream. -/
theorem balancingFactor_of (hb : si.balancingFactor p = some h) :
    (mk si true m).balancingFactor p = (h, mk si true m) := by
  unfold AVLIndex.balancingFactor at hb
  unfold balancingFactor
  split_ifs at hb ⊢
  · cases hb
    rfl
  · simp only [Option.bind_eq_bind, Option.bind_eq_some_iff] at hb
    obtain ⟨node, hread, hl, hleft, hr, hright, heq⟩ := hb
    cases heq
    simp only [read_of hread, height_of hleft, height_of hright]

/-- `isBalanced` on a good stream. -/
theorem isBalanced_of (hb : si.isBalanced p = some b) :
    (mk si true m).isBalanced p = (b, mk si true m) := by
  unfold AVLIndex.isBalanced at hb
  unfold isBalanced
  split_ifs at hb ⊢
  · cases hb
    rfl
  · obtain ⟨balance, hbal, rfl⟩ := Option.map_eq_some_iff.1 hb
    simp only [balancingFactor_of hbal]

/-- `leftRotation` on a good stream. -/
theorem leftRotation_of (hr : si.leftRotation p = some si') :
    (mk si true m).leftRotation p = mk si' true m := by
  unfold AVLIndex.leftRotation at hr
  simp only [Option.bind_eq_bind, Option.bind_eq_some_iff] at hr
  obtain ⟨a, ha, b, hb, s1, h1, s2, h2, s3, h3, h4⟩ := hr
  unfold leftRotation
  simp only [read_of ha, read_of hb, write_of h1, write_of h2, updateHeigth_of h3]
  exact updateHeigth_of h4

/-- `rightRotation` on a good stream. -/
theorem rightRotation_of (hr : si.rightRotation p = some si') :
    (mk si true m).rightRotation p = mk si' true m := by
  unfold AVLIndex.rightRotation at hr
  simp only [Option.bind_eq_bind, Option.bind_eq_some_iff] at hr
  obtain ⟨a, ha, b, hb, s1, h1, s2, h2, s3, h3, h4⟩ := hr
  unfold rightRotation
  simp only [read_of ha, read_of hb, write_of h1, write_of h2, updateHeigth_of h3]
  exact updateHeigth_of h4

/-- `balance` on a good stream. -/
theorem balance_of (hb : si.balance p = some si') :
    (mk si true m).balance p = mk si' true m := by
  unfold AVLIndex.balance at hb
  unfold balance
  by_cases hp : p = -1
  · rw [if_pos hp] at hb ⊢
    cases hb
    rfl
  rw [if_neg hp] at hb ⊢
  obtain ⟨node, hread, hb⟩ := Option.bind_eq_some_iff.1 hb
  obtain ⟨factor, hfactor, hb⟩ := Option.bind_eq_some_iff.1 hb
  simp only [read_of hread, balancingFactor_of hfactor]
  by_cases hleft : 1 < factor
  · rw [if_pos hleft] at hb ⊢
    obtain ⟨left, hfleft, hb⟩ := Option.bind_eq_some_iff.1 hb
    simp only [balancingFactor_of hfleft]
    by_cases hd : left ≤ -1
    · rw [if_pos hd] at hb ⊢
      obtain ⟨s1, h1, h2⟩ := Option.bind_eq_some_iff.1 hb
      rw [leftRotation_of h1, rightRotation_of h2]
    · rw [if_neg hd] at hb ⊢
      exact rightRotation_of hb
  rw [if_neg hleft] at hb ⊢
  by_cases hright : factor < -1
  · rw [if_pos hright] at hb ⊢
    obtain ⟨right, hfright, hb⟩ := Option.bind_eq_some_iff.1 hb
    simp only [balancingFactor_of hfright]
    by_cases hd : 1 ≤ right
    · rw [if_pos hd] at hb ⊢
      obtain ⟨s1, h1, h2⟩ := Option.bind_eq_some_iff.1 hb
      rw [rightRotation_of h1, leftRotation_of h2]
    · rw [if_neg hd] at hb ⊢
      exact leftRotation_of hb
  · rw [if_neg hright] at hb ⊢
    cases hb
    rfl

/-- `updateBalance` on a good stream. -/
theorem updateBalance_of (hu : si.updateBalance p = some si') :
    (mk si true m).updateBalance p = mk si' true m := by
  unfold AVLIndex.updateBalance at hu
  simp only [Option.bind_eq_bind, Option.bind_eq_some_iff] at hu
  obtain ⟨s1, h1, balanced, hbal, h2⟩ := hu
  unfold updateBalance
  simp only [updateHeigth_of h1, isBalanced_of hbal]
  split_ifs at h2 ⊢
  · exact balance_of h2
  · cases h2
    rfl

/-- A new node gets the same slot on a good stream. -/
theorem allocate_of (ha : si.allocate = some (q, si')) :
    (mk si true m).allocate = (q, mk si' true m) := by
  unfold AVLIndex.allocate at ha
  unfold allocate
  split_ifs at ha ⊢
  · obtain ⟨tempNode, hread, heq⟩ := Option.bind_eq_some_iff.1 ha
    cases heq
    simp only [read_of hread]
    rfl
  · cases ha
    rfl

/-- `insertNode` on a good stream. -/
theorem insertNode_of (hi : si.insertNode n = some (q, si')) :
    (mk si true m).insertNode n = (q, mk si' true m) := by
  unfold AVLIndex.insertNode at hi
  obtain ⟨⟨q', s1⟩, ha, hi⟩ := Option.bind_eq_some_iff.1 hi
  obtain ⟨s2, hw, heq⟩ := Option.bind_eq_some_iff.1 hi
  cases heq
  unfold insertNode
  simp only [allocate_of ha]
  rw [write_of hw]

/-- The new node and its parent, which links to it. -/
theorem insertChild_of {res : Except Exn Unit} {s1 : AVLIndex κ}
    (hw : s1.write p c = some si')
    (hend : AVLIndex.insertEnd p (.ok (), si') = some (res, si)) :
    insertEnd p (.ok (), (mk s1 true m).write p c) = (res, mk si true m) := by
  obtain ⟨s2, hbal, heq⟩ := Option.map_eq_some_iff.1 hend
  cases heq
  rw [write_of hw, insertEnd, updateBalance_of hbal]

/-- The end of `insert` on a good stream. -/
theorem insertEnd_of {out : Outcome (AVLIndex κ) Unit} {res : Except Exn Unit}
    (hend : AVLIndex.insertEnd p out = some (res, si')) :
    insertEnd p (out.1, mk out.2 true m) = (res, mk si' true m) := by
  obtain ⟨res' | u, s1⟩ := out
  · cases hend
    rfl
  · obtain ⟨s2, hbal, heq⟩ := Option.map_eq_some_iff.1 hend
    cases heq
    show insertEnd p (.ok (), _) = _
    rw [insertEnd, updateBalance_of hbal]

end

/-- `insert` on a good stream. -/
theorem insert_of : ∀ {fuel : Nat} {si si' : AVLIndex κ} {p : Int} {c : AVLIndexNode κ}
    {res : Except Exn Unit}, AVLIndex.insert fuel si p iNode = some (res, si') →
    insert fuel (mk si true m) p c iNode = some (res, mk si' true m)
  | 0, _, _, _, _, _, hi => nomatch hi
  | fuel + 1, si, si', p, c, res, hi => by
    unfold AVLIndex.insert at hi
    unfold insert
    by_cases hp : p = -1
    · rw [if_pos hp] at hi ⊢
      obtain ⟨s1, hroot, heq⟩ := Option.map_eq_some_iff.1 hi
      cases heq
      unfold AVLIndex.insertRoot at hroot
      obtain ⟨s2, hw, heq⟩ := Option.bind_eq_some_iff.1 hroot
      cases heq
      rw [insertRoot, write_of hw]
      rfl
    rw [if_neg hp] at hi ⊢
    obtain ⟨n, hread, hi⟩ := Option.bind_eq_some_iff.1 hi
    simp only [read_of hread]
    split_ifs at hi ⊢
    · obtain ⟨out, hrec, hend⟩ := Option.bind_eq_some_iff.1 hi
      rw [insert_of hrec, Option.map_some, insertEnd_of hend]
    · obtain ⟨⟨q, s1⟩, h1, hi⟩ := Option.bind_eq_some_iff.1 hi
      obtain ⟨s2, h2, h3⟩ := Option.bind_eq_some_iff.1 hi
      simp only [insertNode_of h1]
      rw [insertChild_of h2 h3]
    · obtain ⟨out, hrec, hend⟩ := Option.bind_eq_some_iff.1 hi
      rw [insert_of hrec, Option.map_some, insertEnd_of hend]
    · obtain ⟨⟨q, s1⟩, h1, hi⟩ := Option.bind_eq_some_iff.1 hi
      obtain ⟨s2, h2, h3⟩ := Option.bind_eq_some_iff.1 hi
      simp only [insertNode_of h1]
      rw [insertChild_of h2 h3]
    · cases hi
      rfl
    · obtain ⟨s1, hdup, heq⟩ := Option.map_eq_some_iff.1 hi
      cases heq
      have hw : (mk si true m).insertDuplicate n iNode = mk si' true m := write_of hdup
      rw [hw]

/-- The loop of `bulk_insert` on a good stream. -/
theorem insertAll_of : ∀ {records : List (κ × Int)} {si si' : AVLIndex κ}
    {res : Except Exn Unit}, AVLIndex.insertAll fuel si records = some (res, si') →
    insertAll fuel (mk si true m) records = some (res, mk si' true m)
  | [], _, _, _, hi => by
    cases hi
    rfl
  | (data, rawPos) :: records, si, si', res, hi => by
    obtain ⟨⟨res1, s1⟩, h1, h2⟩ := Option.bind_eq_some_iff.1 hi
    unfold insertAll
    rw [insert_of h1]
    cases res1 with
    | error e =>
      cases h2
      rfl
    | ok u => exact insertAll_of h2

/-- The node-level `search` on a good stream. -/
theorem searchNode_of : ∀ {fuel : Nat} {p : Int} {c : AVLIndexNode κ}
    {res : Except Exn (AVLIndexNode κ)}, si.searchNode fuel p k = some res →
    searchNode fuel (mk si true m) p c k = some (res, mk si true m)
  | 0, _, _, _, hs => nomatch hs
  | fuel + 1, p, c, res, hs => by
    unfold AVLIndex.searchNode at hs
    unfold searchNode
    by_cases hp : p = -1
    · rw [if_pos hp] at hs ⊢
      cases hs
      rfl
    rw [if_neg hp] at hs ⊢
    obtain ⟨n, hread, hs⟩ := Option.bind_eq_some_iff.1 hs
    simp only [read_of hread]
    split_ifs at hs ⊢
    · exact searchNode_of hs
    · exact searchNode_of hs
    · cases hs
      rfl

omit [KeyType κ] in
/-- `maxNode` on a good stream. -/
theorem maxNode_of : ∀ {fuel : Nat} {p : Int} {res : Except Exn Int},
    si.maxNode fuel p = some res → maxNode fuel (mk si true m) p = some (res, mk si true m)
  | 0, _, _, hs => nomatch hs
  | fuel + 1, p, res, hs => by
    unfold AVLIndex.maxNode at hs
    unfold maxNode
    by_cases hp : p = -1
    · rw [if_pos hp] at hs ⊢
      cases hs
      rfl
    rw [if_neg hp] at hs ⊢
    obtain ⟨n, hread, hs⟩ := Option.bind_eq_some_iff.1 hs
    simp only [read_of hread]
    split_ifs at hs ⊢
    · cases hs
      rfl
    · exact maxNode_of hs

/-- `fixValue` on a good stream. -/
theorem fixValue_of : ∀ {fuel : Nat} {p : Int} {c tempNode : AVLIndexNode κ},
    si.fixValue fuel p k tempNode = some si' →
    fixValue fuel (mk si true m) p c k tempNode = some (mk si' true m)
  | 0, _, _, _, hs => nomatch hs
  | fuel + 1, p, c, tempNode, hs => by
    unfold AVLIndex.fixValue at hs
    unfold fixValue
    by_cases hp : p = -1
    · rw [if_pos hp] at hs ⊢
      cases hs
      rfl
    rw [if_neg hp] at hs ⊢
    obtain ⟨n, hread, hs⟩ := Option.bind_eq_some_iff.1 hs
    simp only [read_of hread]
    split_ifs at hs ⊢
    · exact fixValue_of hs
    · exact fixValue_of hs
    · rw [write_of hs]

omit [KeyType κ] in
/-- A node is unlinked alike on a good stream. -/
theorem eraseNode_of (he : si.eraseNode p q n h = some si') :
    (mk si true m).eraseNode p q n h = mk si' true m := by
  unfold AVLIndex.eraseNode at he
  unfold eraseNode
  by_cases hq : q ≠ -1
  · simp only [if_pos hq] at he ⊢
    obtain ⟨pNode, hread, he⟩ := Option.bind_eq_some_iff.1 he
    obtain ⟨s1, h1, he⟩ := Option.bind_eq_some_iff.1 he
    obtain ⟨s2, h2, heq⟩ := Option.bind_eq_some_iff.1 he
    cases heq
    simp only [read_of hread]
    rw [write_of h1, write_of h2]
    rfl
  · simp only [if_neg hq] at he ⊢
    obtain ⟨s1, h1, he⟩ := Option.bind_eq_some_iff.1 he
    cases h1
    obtain ⟨s2, h2, heq⟩ := Option.bind_eq_some_iff.1 he
    cases heq
    rw [write_of h2]
    rfl

/-- The outcome of an `erase` that has read the node `n` last. -/
def erasedTo (m : κ) (res : AVLIndex.Erased κ) (n : AVLIndexNode κ) :
    Outcome (AVLStream κ) (Bool × AVLIndexNode κ) :=
  (.ok (res.1, n), mk res.2.2 true m)

omit [KeyType κ] in
/-- The end of `erase` on a good stream. -/
theorem eraseEnd_of {res res' : AVLIndex.Erased κ} (he : AVLIndex.eraseEnd p res = some res') :
    eraseEnd p (erasedTo m res n) = erasedTo m res' n := by
  obtain ⟨_ | _, c, s1⟩ := res
  · cases he
    rfl
  · obtain ⟨s2, hbal, heq⟩ := Option.map_eq_some_iff.1 he
    cases heq
    show (_, (mk s1 true m).updateBalance p) = _
    rw [updateBalance_of hbal]
    rfl

omit [KeyType κ] in
/-- The branches for a node with at most one child. -/
theorem eraseThin_of {child : Int} {res : AVLIndex.Erased κ}
    (he : (si.eraseNode p q n child).bind (fun si =>
      (AVLIndex.eraseEnd p (true, n, si)).map (@Except.ok Exn _)) = some (.ok res)) :
    eraseEnd p (.ok (true, n), (mk si true m).eraseNode p q n child) = erasedTo m res n := by
  obtain ⟨s1, h1, he⟩ := Option.bind_eq_some_iff.1 he
  obtain ⟨res', hend, heq⟩ := Option.map_eq_some_iff.1 he
  cases heq
  rw [eraseNode_of h1, ← eraseEnd_of hend]
  rfl

/-- `erase` on a good stream. The node that is passed in is the last one when there is none to be
read. -/
theorem erase_of : ∀ {fuel : Nat} {si : AVLIndex κ} {p q : Int} {k : κ} {c : AVLIndexNode κ}
    {res : AVLIndex.Erased κ} (c' : AVLIndexNode κ),
    AVLIndex.erase fuel si p q c k = some (.ok res) →
    ∃ n, erase fuel (mk si true m) p q c' k = some (erasedTo m res n)
  | 0, _, _, _, _, _, _, _, he => nomatch he
  | fuel + 1, si, p, q, k, c, res, c', he => by
    unfold AVLIndex.erase at he
    unfold erase
    by_cases hp : p = -1
    · rw [if_pos hp] at he ⊢
      cases he
      exact ⟨c', rfl⟩
    rw [if_neg hp] at he ⊢
    obtain ⟨n, hread, he⟩ := Option.bind_eq_some_iff.1 he
    simp only [read_of hread]
    by_cases hlt : n.data < k
    · rw [if_pos hlt] at he ⊢
      obtain ⟨_ | out, hrec, hend⟩ := Option.bind_eq_some_iff.1 he
      · cases hend
      obtain ⟨res', hend, heq⟩ := Option.map_eq_some_iff.1 hend
      cases heq
      obtain ⟨n', hrec'⟩ := erase_of n hrec
      exact ⟨n', by rw [hrec', Option.map_some, eraseEnd_of hend]⟩
    rw [if_neg hlt] at he ⊢
    by_cases hgt : k < n.data
    · rw [if_pos hgt] at he ⊢
      obtain ⟨_ | out, hrec, hend⟩ := Option.bind_eq_some_iff.1 he
      · cases hend
      obtain ⟨res', hend, heq⟩ := Option.map_eq_some_iff.1 hend
      cases heq
      obtain ⟨n', hrec'⟩ := erase_of n hrec
      exact ⟨n', by rw [hrec', Option.map_some, eraseEnd_of hend]⟩
    rw [if_neg hgt] at he ⊢
    by_cases h0 : n.leftChildren = -1 ∧ n.rightChildren = -1
    · rw [if_pos h0] at he ⊢
      exact ⟨n, by rw [eraseThin_of he]⟩
    rw [if_neg h0] at he ⊢
    by_cases hl : n.leftChildren = -1
    · rw [if_pos hl] at he ⊢
      exact ⟨n, by rw [eraseThin_of he]⟩
    rw [if_neg hl] at he ⊢
    by_cases hr : n.rightChildren = -1
    · rw [if_pos hr] at he ⊢
      exact ⟨n, by rw [eraseThin_of he]⟩
    rw [if_neg hr] at he ⊢
    obtain ⟨_ | newPos, hmax, he⟩ := Option.bind_eq_some_iff.1 he
    · cases he
    obtain ⟨tempNode, htemp, he⟩ := Option.bind_eq_some_iff.1 he
    obtain ⟨_ | ⟨b, n1, s1⟩, hrec, he⟩ := Option.bind_eq_some_iff.1 he
    · cases he
    obtain ⟨s2, hfix, he⟩ := Option.bind_eq_some_iff.1 he
    obtain ⟨res', hend, heq⟩ := Option.map_eq_some_iff.1 he
    cases heq
    obtain ⟨otherNode, hrec'⟩ := erase_of (mk si true m).fresh hrec
    refine ⟨n, ?_⟩
    rw [maxNode_of hmax]
    simp only [Option.bind_eq_bind, Option.bind_some, read_of htemp]
    rw [hrec', Option.bind_some]
    simp only [erasedTo, fixValue_of hfix, Option.bind_some]
    exact congrArg some (eraseEnd_of hend)

/-! ## A stream that has failed -/

section
variable {s s' : AVLStream κ}
omit [KeyType κ]

/-- A read through a failed stream leaves the node in memory as it is. -/
theorem read_failed (h : s.good = false) (c : AVLIndexNode κ) : s.read p c = (c, s) := by
  rw [read, h]
  rfl

/-- A write through a failed stream does nothing. -/
theorem write_failed (h : s.good = false) : s.write p n = s := by
  rw [write, h]
  rfl

/-- `height` of a failed stream changes nothing. -/
theorem height_failed (h : s.good = false) : (s.height p).2 = s := by
  unfold height
  split_ifs
  · rfl
  · rw [read_failed h]

/-- `updateHeigth` on a failed stream does nothing. -/
theorem updateHeigth_failed (h : s.good = false) : s.updateHeigth p = s := by
  unfold updateHeigth
  split_ifs
  · rfl
  · simp only [read_failed h, height_failed h, write_failed h]

/-- `balancingFactor` of a failed stream changes nothing. -/
theorem balancingFactor_failed (h : s.good = false) : (s.balancingFactor p).2 = s := by
  unfold balancingFactor
  split_ifs
  · rfl
  · simp only [read_failed h, height_failed h]

/-- `isBalanced` of a failed stream changes nothing. -/
theorem isBalanced_failed (h : s.good = false) : (s.isBalanced p).2 = s := by
  unfold isBalanced
  split_ifs
  · rfl
  · exact balancingFactor_failed h

/-- `leftRotation` on a failed stream does nothing. -/
theorem leftRotation_failed (h : s.good = false) : s.leftRotation p = s := by
  unfold leftRotation
  simp only [read_failed h, write_failed h, updateHeigth_failed h]

/-- `rightRotation` on a failed stream does nothing. -/
theorem rightRotation_failed (h : s.good = false) : s.rightRotation p = s := by
  unfold rightRotation
  simp only [read_failed h, write_failed h, updateHeigth_failed h]

/-- `balance` on a failed stream does nothing. -/
theorem balance_failed (h : s.good = false) : s.balance p = s := by
  unfold balance
  simp only [read_failed h, balancingFactor_failed h, leftRotation_failed h,
    rightRotation_failed h, ite_self]

/-- `updateBalance` on a failed stream does nothing. -/
theorem updateBalance_failed (h : s.good = false) : s.updateBalance p = s := by
  unfold updateBalance
  simp only [updateHeigth_failed h, isBalanced_failed h, balance_failed h, ite_self]

/-- The second state has the nodes of the first, and its stream has failed too. -/
structure Unwritten (s s' : AVLStream κ) : Prop where
  good : s'.good = false
  nodes : s'.nodes = s.nodes

/-- A header is set in memory, and not written to the file. -/
theorem writeHeader_failed (h : s.good = false) (header : AVLIndexHeader) :
    s.Unwritten (s.writeHeader header) := by
  rw [writeHeader, if_neg (by rw [h]; decide)]
  exact ⟨h, rfl⟩

/-- `insertNode` on a failed stream writes no node. -/
theorem insertNode_failed (h : s.good = false) : s.Unwritten (s.insertNode n).2 := by
  have ha : s.Unwritten s.allocate.2 := by
    unfold allocate
    split_ifs
    · simp only [read_failed h]
      exact writeHeader_failed h _
    · exact ⟨h, rfl⟩
  show s.Unwritten (s.allocate.2.write _ _)
  rw [write_failed ha.good]
  exact ha

/-- The end of `insert` on a failed stream writes no node. -/
theorem insertEnd_failed {res : Except Exn Unit} (h : s.Unwritten s') :
    s.Unwritten (insertEnd p (res, s')).2 := by
  cases res with
  | error e => exact h
  | ok u =>
    show s.Unwritten (s'.updateBalance p)
    rw [updateBalance_failed h.good]
    exact h

end

/-- `insert` writes no node on a stream that has failed. -/
theorem insert_failed : ∀ {fuel : Nat} {s : AVLStream κ} {p : Int} {c : AVLIndexNode κ}
    {out : Outcome (AVLStream κ) Unit}, s.good = false → insert fuel s p c iNode = some out →
    s.Unwritten out.2
  | 0, _, _, _, _, _, hi => nomatch hi
  | fuel + 1, s, p, c, out, hs, hi => by
    unfold insert at hi
    by_cases hp : p = -1
    · rw [if_pos hp] at hi
      cases hi
      rw [insertRoot, write_failed hs]
      exact writeHeader_failed hs _
    rw [if_neg hp, read_failed hs] at hi
    dsimp only at hi
    split_ifs at hi
    · obtain ⟨out', hrec, rfl⟩ := Option.map_eq_some_iff.1 hi
      exact insertEnd_failed (insert_failed hs hrec)
    · cases hi
      have hnew := insertNode_failed (n := iNode) hs
      rw [write_failed hnew.good]
      exact insertEnd_failed hnew
    · obtain ⟨out', hrec, rfl⟩ := Option.map_eq_some_iff.1 hi
      exact insertEnd_failed (insert_failed hs hrec)
    · cases hi
      have hnew := insertNode_failed (n := iNode) hs
      rw [write_failed hnew.good]
      exact insertEnd_failed hnew
    · cases hi
      exact ⟨hs, rfl⟩
    · cases hi
      show s.Unwritten (write _ _ _)
      rw [write_failed (by exact hs)]
      exact ⟨hs, rfl⟩

/-- `insert` into a node that has not been filled, with another key. -/
theorem insert_unfilled {s : AVLStream κ} (hs : s.good = false) (hp : p ≠ -1)
    (hk : c.data ≠ iNode.data) (hl : c.leftChildren = -1) (hr : c.rightChildren = -1) :
    ∃ s', ∀ fuel, insert (fuel + 1) s p c iNode = some (.ok (), s') := by
  rcases lt_or_gt_of_ne hk with hlt | hgt
  · let new := s.insertNode iNode
    let cNode := { c with rightChildren := new.1, currentPos := p }
    refine ⟨(new.2.write p cNode).updateBalance p, fun fuel => ?_⟩
    rw [insert, if_neg hp, read_failed hs]
    simp only [if_pos hlt, hr, ne_eq, not_true_eq_false, if_false]
    rfl
  · let new := s.insertNode iNode
    let cNode := { c with leftChildren := new.1, currentPos := p }
    refine ⟨(new.2.write p cNode).updateBalance p, fun fuel => ?_⟩
    rw [insert, if_neg hp, read_failed hs]
    simp only [if_neg hgt.not_gt, if_pos hgt, hl, ne_eq, not_true_eq_false, if_false]
    rfl

/-! ## What a call keeps on any stream -/

section
variable {s s' : AVLStream κ}

omit [KeyType κ] in
/-- A read leaves the index as it is, whatever the stream. -/
theorem read_toAVLIndex : (s.read p c).2.toAVLIndex = s.toAVLIndex := by
  unfold read
  split
  · split <;> rfl
  · rfl

/-- The node-level `search` does not change the index. -/
theorem searchNode_toAVLIndex : ∀ {fuel : Nat} {s : AVLStream κ} {p : Int} {c : AVLIndexNode κ}
    {res : Except Exn (AVLIndexNode κ)}, searchNode fuel s p c k = some (res, s') →
    s'.toAVLIndex = s.toAVLIndex
  | 0, _, _, _, _, hs => nomatch hs
  | fuel + 1, s, p, c, res, hs => by
    unfold searchNode at hs
    split_ifs at hs
    · cases hs
      rfl
    dsimp only at hs
    split_ifs at hs
    · exact (searchNode_toAVLIndex hs).trans read_toAVLIndex
    · exact (searchNode_toAVLIndex hs).trans read_toAVLIndex
    · cases hs
      exact read_toAVLIndex

/-- The node-level `rangeSearch` does not change the index. -/
theorem rangeSearchNode_toAVLIndex {first last : κ} : ∀ {fuel : Nat} {s : AVLStream κ} {p : Int}
    {c : AVLIndexNode κ} {records : List Int} {out : AVLIndexNode κ × List Int × AVLStream κ},
    rangeSearchNode fuel s p c first last records = some out →
    out.2.2.toAVLIndex = s.toAVLIndex
  | 0, _, _, _, _, _, hs => nomatch hs
  | fuel + 1, s, p, c, records, out, hs => by
    have hchild : ∀ {s' : AVLStream κ} {q : Int} {c' : AVLIndexNode κ} {records' : List Int} {out'},
        (rangeSearchNode fuel s' q c' first last records').map (readAgain p) = some out' →
        out'.2.2.toAVLIndex = s'.toAVLIndex := by
      intro s' q c' records' out' h
      obtain ⟨out1, hrec, rfl⟩ := Option.map_eq_some_iff.1 h
      exact read_toAVLIndex.trans (rangeSearchNode_toAVLIndex hrec)
    unfold rangeSearchNode at hs
    split_ifs at hs
    · cases hs
      rfl
    obtain ⟨⟨c1, records1, s1⟩, h1, hs⟩ := Option.bind_eq_some_iff.1 hs
    obtain ⟨records2, -, hs⟩ := Option.bind_eq_some_iff.1 hs
    have h2 : out.2.2.toAVLIndex = s1.toAVLIndex := by
      split_ifs at hs
      · exact hchild hs
      · cases hs
        rfl
    have h3 : s1.toAVLIndex = (s.read p c).2.toAVLIndex := by
      split_ifs at h1
      · exact hchild h1
      · cases h1
        rfl
    exact h2.trans (h3.trans read_toAVLIndex)

/-- An `insert` that throws has not changed the index. -/
theorem insert_error {e : Exn} : ∀ {fuel : Nat} {s : AVLStream κ} {p : Int} {c : AVLIndexNode κ},
    insert fuel s p c iNode = some (.error e, s') → s'.toAVLIndex = s.toAVLIndex
  | 0, _, _, _, hi => nomatch hi
  | fuel + 1, s, p, c, hi => by
    unfold insert at hi
    by_cases hp : p = -1
    · rw [if_pos hp] at hi
      cases hi
    rw [if_neg hp] at hi
    dsimp only at hi
    have hend : ∀ {out : Outcome (AVLStream κ) Unit}, insertEnd p out = (.error e, s') →
        out = (.error e, s') := by
      rintro ⟨_ | _, s1⟩ h
      · exact h
      · cases h
    split_ifs at hi
    · obtain ⟨out, hrec, h⟩ := Option.map_eq_some_iff.1 hi
      cases hend h
      exact (insert_error hrec).trans read_toAVLIndex
    · cases hi
    · obtain ⟨out, hrec, h⟩ := Option.map_eq_some_iff.1 hi
      cases hend h
      exact (insert_error hrec).trans read_toAVLIndex
    · cases hi
    · cases hi
      exact read_toAVLIndex
    · cases hi

end

end AVLStream

end Rdbms
