import Rdbms.Lib.Settled
import Rdbms.Avl.Positions
import Rdbms.Avl.Report

/-!
# How deep the recursion goes

The functions of the index call themselves once for a level of the tree, so that a bound on the
recursion that is larger than the number of levels is enough for them (`Settled`). `erase` goes down
twice when the node of the key has two children. As the tree is in balance, the number of levels is
logarithmic in the number of keys (`AvlTree.Balanced.levels_lt`), after every run (`depth_of_run`).
-/

namespace Rdbms

namespace AVLIndex
variable {κ : Type} [KeyType κ] {si : AVLIndex κ} {t : AvlTree Int (Record κ)} {F : List Int}
  {log : List (Op κ)} {k : κ} {N : Nat}

/-! ## Search and insertion -/

/-- A call for each level of the tree is enough for the search. -/
theorem Rep.searchNode_settled (k : κ) : ∀ {t : AvlTree Int (Record κ)} {p : Int}, si.Rep p t →
    Settled (t.levels + 1) (si.searchNode · p k)
  | .nil, p, h => by
    have hp : p = -1 := h
    exact .succ fun n _ => by simp only [searchNode, hp, if_true]
  | .node s l b r, p, h => by
    obtain ⟨-, n, hn, -, -, -, hl, hr⟩ := h
    refine .succ fun fuel hfuel => ?_
    have hl' : si.searchNode fuel n.leftChildren k = si.searchNode _ n.leftChildren k :=
      (hl.searchNode_settled k).mono AvlTree.levels_left_lt fuel hfuel
    have hr' : si.searchNode fuel n.rightChildren k = si.searchNode _ n.rightChildren k :=
      (hr.searchNode_settled k).mono AvlTree.levels_right_lt fuel hfuel
    simp only [searchNode, if_neg (ne_neg_one_of_read hn), hn, Option.bind_eq_bind, Option.bind_some]
    rw [hl', hr']

/-- And for the insertion. -/
theorem Rep.insert_settled (iNode : AVLIndexNode κ) : ∀ {t : AvlTree Int (Record κ)} {p : Int},
    si.Rep p t → Settled (t.levels + 1) (insert · si p iNode)
  | .nil, p, h => by
    have hp : p = -1 := h
    exact .succ fun n _ => by simp only [insert, hp, if_true]
  | .node s l b r, p, h => by
    obtain ⟨-, n, hn, -, -, -, hl, hr⟩ := h
    refine .succ fun fuel hfuel => ?_
    have hl' : insert fuel si n.leftChildren iNode = insert _ si n.leftChildren iNode :=
      (hl.insert_settled iNode).mono AvlTree.levels_left_lt fuel hfuel
    have hr' : insert fuel si n.rightChildren iNode = insert _ si n.rightChildren iNode :=
      (hr.insert_settled iNode).mono AvlTree.levels_right_lt fuel hfuel
    simp only [insert, if_neg (ne_neg_one_of_read hn), hn, Option.bind_eq_bind, Option.bind_some]
    rw [hl', hr']

/-! ## The traversal -/

variable {σ : Type} {visit : Nat → AVLIndexNode κ → σ → Option σ}

/-- And for the traversal, when the visits need no bound. -/
theorem Rep.rangeTraverse_settled (hv : ∀ n s, Settled 0 (visit · n s)) (first last : κ) :
    ∀ {t : AvlTree Int (Record κ)} {p : Int} (c : AVLIndexNode κ) (s : σ), si.Rep p t →
      Settled (t.levels + 1) (si.rangeTraverse visit · p c first last s)
  | .nil, p, c, s, h => by
    have hp : p = -1 := h
    exact .succ fun n _ => by simp only [rangeTraverse, hp, if_true]
  | .node u l b r, p, c, s, h => by
    obtain ⟨-, n, hn, -, -, -, hl, hr⟩ := h
    have hl' := fun s => (hl.rangeTraverse_settled hv first last n s).mono
      (M := (AvlTree.node u l b r).levels) AvlTree.levels_left_lt
    have hr' := fun s => (hr.rangeTraverse_settled hv first last n s).mono
      (M := (AvlTree.node u l b r).levels) AvlTree.levels_right_lt
    refine .succ (Settled.congr ?_ (rangeTraverse_succ hn))
    refine Settled.bind_all (.ite (fun _ => (hl' s).map _) fun _ => .of_eq fun _ => rfl) fun s1 => ?_
    refine Settled.bind_all (.ite (fun _ => (hv n s1).mono (Nat.zero_le _)) fun _ =>
      .of_eq fun _ => rfl) fun s2 => ?_
    exact Settled.map _ (.ite (fun _ => (hr' s2).map _) fun _ => .of_eq fun _ => rfl)

/-! ## Deletion -/

section
variable {c p q : Int} {d : AVLIndexNode κ} {l r T : AvlTree Int (Record κ)} {b : Record κ}

omit [KeyType κ] in
/-- The way to the largest key of a subtree. -/
theorem Rep.maxNode_settled : ∀ {t : AvlTree Int (Record κ)} {p : Int}, si.Rep p t →
    Settled (t.levels + 1) (si.maxNode · p)
  | .nil, p, h => by
    have hp : p = -1 := h
    exact .succ fun n _ => by simp only [maxNode, hp, if_true]
  | .node s l b r, p, h => by
    obtain ⟨-, n, hn, -, -, -, -, hr⟩ := h
    refine .succ fun fuel hfuel => ?_
    have hr' : si.maxNode fuel n.rightChildren = si.maxNode _ n.rightChildren :=
      hr.maxNode_settled.mono AvlTree.levels_right_lt fuel hfuel
    simp only [maxNode, if_neg (ne_neg_one_of_read hn), hn, Option.bind_eq_bind, Option.bind_some]
    rw [hr']

/-- The way to the node whose contents are replaced. -/
theorem Rep.fixValue_settled (k : κ) (tempNode : AVLIndexNode κ) :
    ∀ {t : AvlTree Int (Record κ)} {p : Int}, si.Rep p t →
      Settled (t.levels + 1) (si.fixValue · p k tempNode)
  | .nil, p, h => by
    have hp : p = -1 := h
    exact .succ fun n _ => by simp only [fixValue, hp, if_true]
  | .node s l b r, p, h => by
    obtain ⟨-, n, hn, -, -, -, hl, hr⟩ := h
    refine .succ fun fuel hfuel => ?_
    have hl' : si.fixValue fuel n.leftChildren k tempNode = si.fixValue _ n.leftChildren k tempNode :=
      (hl.fixValue_settled k tempNode).mono AvlTree.levels_left_lt fuel hfuel
    have hr' : si.fixValue fuel n.rightChildren k tempNode =
        si.fixValue _ n.rightChildren k tempNode :=
      (hr.fixValue_settled k tempNode).mono AvlTree.levels_right_lt fuel hfuel
    simp only [fixValue, if_neg (ne_neg_one_of_read hn), hn, Option.bind_eq_bind, Option.bind_some]
    rw [hl', hr']

/-- `erase` down to the node of the key, where it has at most one child or needs the bound `N`. -/
theorem Rep.erase_settled_of (hN : 1 ≤ N) : ∀ {t : AvlTree Int (Record κ)} {p q : Int}
    {d : AVLIndexNode κ}, si.Rep p t →
    (∀ c l b r, AvlTree.Sub (.node c l b r) t → b.data = k → l ≠ .nil → r ≠ .nil →
      ∀ q d, Settled N (erase · si c q d k)) →
    Settled (t.levels + N) (erase · si p q d k)
  | .nil, p, q, d, h, _ => by
    have hp : p = -1 := h
    have hzero : Settled 1 (erase · si p q d k) :=
      .succ fun n _ => by simp only [erase, hp, if_true]
    exact hzero.mono (Nat.le_add_left_of_le hN)
  | .node s l b r, p, q, d, h, htwo => by
    obtain ⟨rfl, n, hn, rfl, -, -, hl, hr⟩ := h
    have hleft := AvlTree.levels_left_lt (s := p) (a := n.toRecord) (l := l) (r := r)
    have hright := AvlTree.levels_right_lt (s := p) (a := n.toRecord) (l := l) (r := r)
    -- one round at this node
    suffices n.data ≠ k ∨ l = .nil ∨ r = .nil →
        Settled ((AvlTree.node p l n.toRecord r).levels - 1 + N + 1) (erase · si p q d k) by
      by_cases hthin : n.data ≠ k ∨ l = .nil ∨ r = .nil
      · exact (this hthin).mono (by omega)
      · obtain ⟨hk, hl0, hr0⟩ := by simpa only [not_or, not_not] using hthin
        exact (htwo p l n.toRecord r .refl hk hl0 hr0 q d).mono (by omega)
    refine fun hthin => .succ fun fuel hfuel => ?_
    simp only [erase, if_neg (ne_neg_one_of_read hn), hn, Option.bind_eq_bind, Option.bind_some]
    rcases lt_trichotomy n.data k with hlt | heq | hgt
    · have hr' : erase fuel si n.rightChildren p n k = erase _ si n.rightChildren p n k :=
        (hr.erase_settled_of hN fun c l' b' r' hsub => htwo c l' b' r' (.right hsub)).mono
          (by omega) fuel hfuel
      rw [if_pos hlt, if_pos hlt, hr']
    · rw [if_neg heq.not_lt, if_neg heq.not_lt, if_neg heq.not_gt, if_neg heq.not_gt]
      rcases hthin.resolve_left (not_not.2 heq) with rfl | rfl
      · simp only [Rep.nil_iff.1 hl, true_and, if_true]
      · simp only [Rep.nil_iff.1 hr, and_true, if_true]
    · have hl' : erase fuel si n.leftChildren p n k = erase _ si n.leftChildren p n k :=
        (hl.erase_settled_of hN fun c l' b' r' hsub => htwo c l' b' r' (.left hsub)).mono
          (by omega) fuel hfuel
      rw [if_neg hgt.not_gt, if_neg hgt.not_gt, if_pos hgt, if_pos hgt, hl']

/-- `erase` at a node with two children: it goes down from the root once more, and then to where the
key is found. -/
theorem erase_here_settled (hT : si.Rep si.header.rootPointer T) (hnd : T.slots.Nodup)
    (hbal : T.Balanced) (hsorted : SortedBy (·.data) T.toList)
    (hsub : AvlTree.Sub (.node c l b r) T) (hl : l ≠ .nil) (hr : r ≠ .nil) (q : Int)
    (d : AVLIndexNode κ) : Settled (T.levels + 2) (erase · si c q d b.data) := by
  obtain ⟨-, n, hn, rfl, -, -, hln, hrn⟩ := hT.sub hsub
  obtain ⟨xs, m, hlm⟩ : ∃ xs m, l.toList = xs ++ [m] := by
    rcases List.eq_nil_or_concat l.toList with h | ⟨xs, m, h⟩
    · cases l with
      | nil => exact absurd rfl hl
      | node => simp at h
    · exact ⟨xs, m, by simpa using h⟩
  have hm : m ∈ l.toList := by simp [hlm]
  have hmx : m ∈ (AvlTree.node c l n.toRecord r).toList := by simp [hm]
  have hlt : m.data < n.data := (AvlTree.sorted_node.1 (hsub.sorted hsorted)).2.2.1 m hm
  obtain ⟨newPos, tempNode, hmax, htemp, rfl⟩ := maxNode_returns hln hlm
  obtain ⟨hthinx, hthinT⟩ := AvlTree.thin_of_left hsub hsorted hlm
  have he : Erasable tempNode.data T :=
    ⟨hnd, hbal, hsorted, List.mem_map_of_mem (f := (·.data)) (hsub.mem hmx), hthinT⟩
  have hroot : ∀ n', si.read si.header.rootPointer = some n' → n'.data ≠ tempNode.data := by
    intro n' hn'
    cases T with
    | nil => exact nomatch hsub
    | node u A a B =>
      obtain ⟨-, n0, hn0, rfl, -⟩ := hT
      obtain rfl : n' = n0 := Option.some.inj (hn'.symm.trans hn0)
      exact hsub.root_ne hsorted hm
  obtain ⟨x, n1, si1, herase, hcut⟩ := erase_root (p := -1) (d := n) hT he hroot
  have hsub1 := hsub.erase hsorted hbal hmx hthinx
  rw [AvlTree.erase_of_gt (show tempNode.toRecord.data < n.toRecord.data from hlt)] at hsub1
  -- none of the three calls goes deeper than the tree
  have hmaxs := hln.maxNode_settled.mono (M := T.levels + 1)
    (Nat.succ_le_succ (AvlTree.levels_left_lt.le.trans hsub.levels_le))
  have herases : Settled (T.levels + 1)
      (erase · si si.header.rootPointer (-1) n tempNode.data) := by
    refine hT.erase_settled_of le_rfl fun c' l' b' r' hsub' hk hl' hr' => ?_
    have hthin := hsub'.thin_node hsorted (show T.Thin (·.data) b'.data from hk ▸ hthinT)
    exact absurd hthin (not_or.2 ⟨hl', hr'⟩)
  have hfixs := ((hcut.rep.sub_rebalance hsub1).fixValue_settled n.data tempNode).mono
    (M := T.levels + 1)
    (Nat.succ_le_succ (hsub1.levels_le.trans (AvlTree.levels_erase_le hbal hthinT)))
  refine .succ ?_
  simp only [erase, if_neg (ne_neg_one_of_read hn), hn, Option.bind_eq_bind, Option.bind_some,
    lt_irrefl, if_false, mt hln.eq_neg_one_iff.1 hl, mt hrn.eq_neg_one_iff.1 hr, false_and]
  refine hmaxs.bind hmax ?_
  simp only [htemp, Option.bind_some]
  refine herases.bind herase ?_
  exact hfixs.bind_all fun _ => .of_eq fun _ => rfl

/-- `erase` from the root. -/
theorem WellFormed.erase_settled (h : si.WellFormed t F) (k : κ) (d : AVLIndexNode κ) :
    Settled (t.levels + (t.levels + 2)) (erase · si si.header.rootPointer (-1) d k) := by
  refine h.rep.erase_settled_of (Nat.le_add_left ..) fun c l b r hsub hk hl hr q d => ?_
  subst hk
  exact erase_here_settled h.rep (List.nodup_append.1 h.nodup).1 h.balanced h.sorted hsub hl hr q d

end

/-! ## Runs -/

/-- `remove` comes back, whatever the place of the key. -/
theorem WellFormed.remove_ends (h : si.WellFormed t F) (k : κ) :
    ∃ out, Returns (si.remove · k) out := by
  by_cases hmem : k ∈ t.toList.map (·.data)
  · obtain ⟨n, si', hret⟩ := erase_present (d := default) h.rep (List.nodup_append.1 h.nodup).1
      h.balanced h.sorted hmem
    exact ⟨_, remove_returns hret⟩
  · obtain ⟨pos, hret⟩ := h.remove_absent hmem
    exact ⟨_, hret⟩

/-- The tree is as deep as the number of its keys allows. -/
theorem HoldsPositions.levels_lt {n : Nat} (h : si.HoldsPositions log t F)
    (hn : (Op.positions log).length + 1 < Nat.fib (n + 2)) : t.levels < n :=
  h.wellFormed.balanced.levels_lt (h.length_positions ▸ hn)

/-- After every run that does not remove the key of a root with fewer than two children, with `n`
such that there are fewer than `Nat.fib (n + 2) - 1` keys: `n` nested calls are enough for the
node-level `search`, for `add` and for the traversal of a range, and `2 * n` for `remove` of any key,
that of the root too. -/
theorem depth_of_run {n : Nat} (h : OpRun (¬ AtThinRoot · ·) log si)
    (hn : (Op.positions log).length + 1 < Nat.fib (n + 2)) :
    (∀ k, ∃ res, ∀ fuel, n ≤ fuel → si.searchNode fuel si.header.rootPointer k = some res) ∧
    (∀ k v, ∃ out, ∀ fuel, n ≤ fuel → si.add fuel k v = some out) ∧
    (∀ first last, ∃ out, ∀ fuel, n ≤ fuel →
      si.rangeTraverse (fun _ x xs => some (xs ++ [x])) fuel si.header.rootPointer default first last
        [] = some out) ∧
    ∀ k, ∃ out, ∀ fuel, 2 * n ≤ fuel → si.remove fuel k = some out := by
  obtain ⟨t, F, hholds⟩ := h.holdsPositions
  have hlt := hholds.levels_lt hn
  have hrep := hholds.wellFormed.rep
  refine ⟨fun k => ?_, fun k v => ?_, fun first last => ?_, fun k => ?_⟩
  · have hs := (hrep.searchNode_settled k).mono hlt
    by_cases hk : k ∈ (Op.positions log).map (·.1)
    · obtain ⟨x, hx, rfl⟩ := List.mem_map.1 hk
      obtain ⟨y, hret, -⟩ := hholds.searchNode_mem hx
      exact ⟨_, hs.eq_of_returns hret⟩
    · exact ⟨_, hs.eq_of_returns (hholds.searchNode_absent hk)⟩
  · obtain ⟨si', t', F', hret, -⟩ := hholds.add k v
    have hs : Settled n (si.add · k v) := ((hrep.insert_settled _).mono hlt).map _
    exact ⟨_, hs.eq_of_returns hret⟩
  · obtain ⟨ns, ⟨c, hret⟩, -⟩ := hholds.visitsNodes first last
    have hv : ∀ (x : AVLIndexNode κ) (xs : List (AVLIndexNode κ)),
        Settled 0 ((fun _ x xs => some (xs ++ [x]) : Nat → AVLIndexNode κ →
          List (AVLIndexNode κ) → Option (List (AVLIndexNode κ))) · x xs) :=
      fun _ _ => .of_eq fun _ => rfl
    have hs := (hrep.rangeTraverse_settled hv first last default []).mono hlt
    exact ⟨_, hs.eq_of_returns hret⟩
  · obtain ⟨out, hret⟩ := hholds.wellFormed.remove_ends k
    have hs : Settled (2 * n) (si.remove · k) :=
      ((hholds.wellFormed.erase_settled k default).mono (by omega)).map _
    exact ⟨_, hs.eq_of_returns hret⟩

/-- Two keys. -/
theorem depth_of_run_sample : ∃ si : AVLIndex Int, OpRun (¬ AtThinRoot · ·) [.add 5 1, .add 3 2] si ∧
    ∃ res, ∀ fuel, 3 ≤ fuel → si.searchNode fuel si.header.rootPointer 3 = some res := by
  have r1 : OpRun (¬ AtThinRoot · ·) [Op.add (5 : Int) 1] _ := .add .start (.of_add 5 fun _ => rfl)
  have r2 := r1.add (k := 3) (v := 2) (.of_add 5 fun _ => rfl)
  exact ⟨_, r2, (depth_of_run r2 (n := 3) (by decide)).1 3⟩

end AVLIndex

end Rdbms
