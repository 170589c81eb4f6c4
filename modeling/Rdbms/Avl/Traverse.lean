import Rdbms.Lib.AvlErase
import Rdbms.Avl.Rep
import Rdbms.Avl.Search

/-!
# The nodes that a lookup goes through

`rangeTraverse` is `rangeSearch` with the node variable that its recursive calls share, and with the
call for a node of the range as a parameter. On every file whose links form a search tree it makes
this call for the nodes of the range, in key order (`Linked.rangeTraverse_returns`), and nothing is
asked of the heights. `rangeSearch` itself makes the same calls of `getAllRawCurrentRecords`, so it
comes back exactly when the duplicates of these nodes end (`rangeSearch_exact_iff`).
-/

namespace Rdbms

namespace AvlTree
variable {σ α κ : Type*} [LinearOrder κ] {key : α → κ} {s : σ} {a : α} {l r : AvlTree σ α}
  {first last : κ}

/-- The values of a range, with the subtrees left out that cannot have any. -/
theorem filter_range_node (h : SortedBy key (node s l a r).toList) :
    ((node s l a r).toList.filter fun x => first ≤ key x ∧ key x ≤ last) =
      (if first < key a then l.toList.filter fun x => first ≤ key x ∧ key x ≤ last else []) ++
      ((if first ≤ key a ∧ key a ≤ last then [a] else []) ++
      (if key a < last then r.toList.filter fun x => first ≤ key x ∧ key x ≤ last else [])) := by
  obtain ⟨-, -, hla, har⟩ := sorted_node.1 h
  have hl : ¬ first < key a → (l.toList.filter fun x => first ≤ key x ∧ key x ≤ last) = [] := by
    intro hge
    refine List.filter_eq_nil_iff.2 fun x hx hc => ?_
    exact hge ((of_decide_eq_true hc).1.trans_lt (hla x hx))
  have hr : ¬ key a < last → (r.toList.filter fun x => first ≤ key x ∧ key x ≤ last) = [] := by
    intro hge
    refine List.filter_eq_nil_iff.2 fun x hx hc => ?_
    exact hge ((har x hx).trans_le (of_decide_eq_true hc).2)
  rw [toList_node, List.filter_append, List.filter_cons]
  congr 1
  · split_ifs with h
    · rfl
    · exact hl h
  · by_cases ha : first ≤ key a ∧ key a ≤ last
    · simp only [ha, and_self, decide_true, if_true, List.singleton_append]
      split_ifs with h
      · rfl
      · rw [hr h]
    · simp only [ha, decide_false, if_false, List.nil_append, Bool.false_eq_true]
      split_ifs with h
      · rfl
      · exact hr h

end AvlTree

namespace AVLIndex
variable {κ : Type}

/-- The nodes that are reached from the link `p` are the tree `t`, whatever their heights and own
positions are. -/
def Linked (si : AVLIndex κ) : Int → AvlTree Int (AVLIndexNode κ) → Prop
  | p, .nil => p = -1
  | p, .node s l n r => p = s ∧ si.read p = some n ∧ Linked si n.leftChildren l ∧
      Linked si n.rightChildren r

/-- The tree of a file in balance, with all that is in its nodes. -/
theorem Rep.linked {si : AVLIndex κ} : ∀ {t : AvlTree Int (Record κ)} {p : Int}, si.Rep p t →
    ∃ t', si.Linked p t' ∧ t'.map (·.toRecord) = t
  | .nil, _, h => ⟨.nil, h, rfl⟩
  | .node _ _ _ _, _, ⟨hp, n, hn, hb, _, _, hl, hr⟩ => by
    obtain ⟨l', hl', rfl⟩ := hl.linked
    obtain ⟨r', hr', rfl⟩ := hr.linked
    exact ⟨.node _ l' n r', ⟨hp, hn, hl', hr'⟩, by rw [AvlTree.map, hb]⟩

variable [KeyType κ] {si : AVLIndex κ} {t : AvlTree Int (AVLIndexNode κ)} {p : Int} {k : κ}
  {n c : AVLIndexNode κ} {first last : κ}

/-! ## The node-level search -/

/-- `search` finds a key of the tree in its node, and no other key. -/
theorem Linked.searchNode_returns : ∀ {t : AvlTree Int (AVLIndexNode κ)} {p : Int}, si.Linked p t →
    SortedBy (·.data) t.toList →
    (∀ n ∈ t.toList, n.data = k → Returns (si.searchNode · p k) (.ok n)) ∧
      ((∀ n ∈ t.toList, n.data ≠ k) → Returns (si.searchNode · p k)
        (.error (.runtimeError "No se ha encontrado el elemento!")))
  | .nil, p, h, _ => by
    have hp : p = -1 := h
    refine ⟨by simp, fun _ => .of_succ (.of_eq fun fuel => ?_)⟩
    rw [searchNode, if_pos hp]
  | .node _ l n r, p, ⟨_, hn, hl, hr⟩, hsorted => by
    obtain ⟨hsl, hsr, hlb, hbr⟩ := AvlTree.sorted_node.1 hsorted
    have hnext : ∀ fuel, si.searchNode (fuel + 1) p k =
        if n.data < k then si.searchNode fuel n.rightChildren k
        else if k < n.data then si.searchNode fuel n.leftChildren k else some (.ok n) := by
      intro fuel
      rw [searchNode, if_neg (ne_neg_one_of_read hn), hn]
      rfl
    rcases lt_trichotomy n.data k with hlt | heq | hgt
    · obtain ⟨h1, h2⟩ := hr.searchNode_returns hsr
      have hret : ∀ {res}, Returns (si.searchNode · n.rightChildren k) res →
          Returns (si.searchNode · p k) res := fun h =>
        .of_succ (h.congr fun fuel => by rw [hnext, if_pos hlt])
      refine ⟨fun y hy hk => ?_, fun hno => hret (h2 fun y hy => hno y (by simp [hy]))⟩
      rw [AvlTree.toList_node, List.mem_append, List.mem_cons] at hy
      rcases hy with hy | rfl | hy
      · exact absurd ((hlb y hy).trans hlt) hk.not_lt
      · exact absurd hlt hk.not_lt
      · exact hret (h1 y hy hk)
    · have hret : Returns (si.searchNode · p k) (.ok n) :=
        .of_succ (.of_eq fun fuel => by rw [hnext, if_neg heq.not_lt, if_neg heq.not_gt])
      refine ⟨fun y hy hk => ?_, fun hno => absurd heq (hno n (by simp))⟩
      rwa [hsorted.eq_of_key hy (by simp) (hk.trans heq.symm)]
    · obtain ⟨h1, h2⟩ := hl.searchNode_returns hsl
      have hret : ∀ {res}, Returns (si.searchNode · n.leftChildren k) res →
          Returns (si.searchNode · p k) res := fun h =>
        .of_succ (h.congr fun fuel => by rw [hnext, if_neg hgt.not_gt, if_pos hgt])
      refine ⟨fun y hy hk => ?_, fun hno => hret (h2 fun y hy => hno y (by simp [hy]))⟩
      rw [AvlTree.toList_node, List.mem_append, List.mem_cons] at hy
      rcases hy with hy | rfl | hy
      · exact hret (h1 y hy hk)
      · exact absurd hgt hk.not_gt
      · exact absurd (hgt.trans (hbr y hy)) hk.not_gt

/-! ## The traversal -/

section
variable {σ : Type}

/-- `rangeSearch`, from a node: `cNode` is the variable that the calls share, and it is read again
after each of them. `visit` is the call for a node of the range. -/
def rangeTraverse (si : AVLIndex κ) (visit : Nat → AVLIndexNode κ → σ → Option σ) :
    Nat → Int → AVLIndexNode κ → κ → κ → σ → Option (AVLIndexNode κ × σ)
  | 0, _, _, _, _, _ => none
  | fuel + 1, cPointer, cNode, first, last, s =>
    if cPointer = -1 then some (cNode, s)
    else do
      let cNode ← si.read cPointer
      let (cNode, s) ←
        if first < cNode.data then do
          let (_, s) ← rangeTraverse si visit fuel cNode.leftChildren cNode first last s
          let cNode ← si.read cPointer
          some (cNode, s)
        else some (cNode, s)
      let s ← if first ≤ cNode.data ∧ cNode.data ≤ last then visit fuel cNode s else some s
      if cNode.data < last then
        let (_, s) ← rangeTraverse si visit fuel cNode.rightChildren cNode first last s
        let cNode ← si.read cPointer
        some (cNode, s)
      else some (cNode, s)

/-- The calls of `visit` for the nodes, one after the other. -/
inductive Visits (visit : Nat → AVLIndexNode κ → σ → Option σ) :
    List (AVLIndexNode κ) → σ → σ → Prop
  | nil {s : σ} : Visits visit [] s s
  | cons {n : AVLIndexNode κ} {ns : List (AVLIndexNode κ)} {s s1 s' : σ} :
      Returns (visit · n s) s1 → Visits visit ns s1 s' → Visits visit (n :: ns) s s'

variable {visit : Nat → AVLIndexNode κ → σ → Option σ} {ns ms : List (AVLIndexNode κ)} {s s' : σ}

omit [KeyType κ] in
/-- Visits of two parts, one after the other. -/
theorem Visits.of_append : ∀ {ns : List (AVLIndexNode κ)} {s : σ}, Visits visit (ns ++ ms) s s' →
    ∃ s1, Visits visit ns s s1 ∧ Visits visit ms s1 s'
  | [], s, h => ⟨s, .nil, h⟩
  | _ :: _, _, .cons h1 h => by
    obtain ⟨s1, h2, h3⟩ := h.of_append
    exact ⟨s1, .cons h1 h2, h3⟩

/-- One call at a node: the variable has this node again after each of the calls below it. -/
theorem rangeTraverse_succ (hn : si.read p = some n) (fuel : Nat) :
    si.rangeTraverse visit (fuel + 1) p c first last s =
      (if first < n.data then
          (si.rangeTraverse visit fuel n.leftChildren n first last s).map (·.2)
        else some s).bind fun s =>
      (if first ≤ n.data ∧ n.data ≤ last then visit fuel n s else some s).bind fun s =>
      (if n.data < last then
          (si.rangeTraverse visit fuel n.rightChildren n first last s).map (·.2)
        else some s).map (n, ·) := by
  rw [rangeTraverse, if_neg (ne_neg_one_of_read hn), hn]
  split_ifs <;>
    simp only [*, and_self, if_true, if_false, Option.bind_eq_bind, Option.bind_some,
      Option.bind_assoc, Option.map_eq_bind, Function.comp_def]

/-- On a search tree, the calls are made for the nodes of the range, in key order. -/
theorem Linked.rangeTraverse_returns :
    ∀ {t : AvlTree Int (AVLIndexNode κ)} {p : Int} {s s' : σ} (c : AVLIndexNode κ), si.Linked p t →
      SortedBy (·.data) t.toList →
      Visits visit (t.toList.filter fun n => first ≤ n.data ∧ n.data ≤ last) s s' →
      ∃ c', Returns (si.rangeTraverse visit · p c first last s) (c', s')
  | .nil, p, s, s', c, h, _, hv => by
    have hp : p = -1 := h
    cases hv
    refine ⟨c, .of_succ (.of_eq fun fuel => ?_)⟩
    rw [rangeTraverse, if_pos hp]
  | .node _ l n r, p, s, s', c, ⟨hp, hn, hl, hr⟩, hsorted, hv => by
    rw [AvlTree.filter_range_node hsorted] at hv
    obtain ⟨hsl, hsr, -, -⟩ := AvlTree.sorted_node.1 hsorted
    obtain ⟨s1, hv1, hv⟩ := hv.of_append
    obtain ⟨s2, hv2, hv3⟩ := hv.of_append
    have h1 : Returns (fun fuel => if first < n.data then
        (si.rangeTraverse visit fuel n.leftChildren n first last s).map (·.2) else some s) s1 := by
      split_ifs at hv1 ⊢
      · obtain ⟨c', hret⟩ := hl.rangeTraverse_returns n hsl hv1
        exact hret.map _
      · cases hv1
        exact .of_eq fun _ => rfl
    have h2 : Returns (fun fuel =>
        if first ≤ n.data ∧ n.data ≤ last then visit fuel n s1 else some s1) s2 := by
      split_ifs at hv2 ⊢
      · cases hv2 with
        | cons hret hnil =>
          cases hnil
          exact hret
      · cases hv2
        exact .of_eq fun _ => rfl
    have h3 : Returns (fun fuel => if n.data < last then
        (si.rangeTraverse visit fuel n.rightChildren n first last s2).map (·.2) else some s2) s' := by
      split_ifs at hv3 ⊢
      · obtain ⟨c', hret⟩ := hr.rangeTraverse_returns n hsr hv3
        exact hret.map _
      · cases hv3
        exact .of_eq fun _ => rfl
    exact ⟨n, .of_succ ((h1.bind (h2.bind (h3.map (n, ·)))).congr (rangeTraverse_succ hn))⟩

/-- A traversal that comes back has come back from the call for every node of the range. -/
theorem Linked.visit_of_rangeTraverse :
    ∀ {fuel : Nat} {t : AvlTree Int (AVLIndexNode κ)} {p : Int} {s : σ} {c : AVLIndexNode κ}
      {res : AVLIndexNode κ × σ}, si.Linked p t → SortedBy (·.data) t.toList →
      si.rangeTraverse visit fuel p c first last s = some res →
      ∀ n ∈ t.toList.filter fun n => first ≤ n.data ∧ n.data ≤ last,
        ∃ fuel s1 s2, visit fuel n s1 = some s2
  | 0, _, _, _, _, _, _, _, hret => nomatch hret
  | _ + 1, .nil, _, _, _, _, _, _, _ => by simp
  | fuel + 1, .node _ l n r, p, s, c, res, ⟨hp, hn, hl, hr⟩, hsorted, hret => by
    intro m hm
    obtain ⟨hsl, hsr, -, -⟩ := AvlTree.sorted_node.1 hsorted
    rw [rangeTraverse_succ hn] at hret
    obtain ⟨s1, h1, hret⟩ := Option.bind_eq_some_iff.1 hret
    obtain ⟨s2, h2, hret⟩ := Option.bind_eq_some_iff.1 hret
    obtain ⟨s3, h3, -⟩ := Option.map_eq_some_iff.1 hret
    rw [AvlTree.filter_range_node hsorted, List.mem_append, List.mem_append] at hm
    rcases hm with hm | hm | hm
    · split_ifs at hm h1
      · obtain ⟨_, h1, -⟩ := Option.map_eq_some_iff.1 h1
        exact hl.visit_of_rangeTraverse hsl h1 m hm
      · cases hm
    · split_ifs at hm h2
      · obtain rfl := List.mem_singleton.1 hm
        exact ⟨fuel, s1, s2, h2⟩
      · cases hm
    · split_ifs at hm h3
      · obtain ⟨_, h3, -⟩ := Option.map_eq_some_iff.1 h3
        exact hr.visit_of_rangeTraverse hsr h3 m hm
      · cases hm

end

/-! ## `rangeSearch` -/

/-- The call of `getAllRawCurrentRecords` for a node, which notes the node. -/
def handOver (si : AVLIndex κ) (fuel : Nat) (n : AVLIndexNode κ) :
    List (AVLIndexNode κ) × List Int → Option (List (AVLIndexNode κ) × List Int)
  | (ns, records) => (si.getAllRawCurrentRecords fuel n records).map (ns ++ [n], ·)

/-- `rangeSearch` comes back with `records`, and it has handed the nodes `ns` to
`getAllRawCurrentRecords`, in this order. -/
def HandsOver (si : AVLIndex κ) (first last : κ) (ns : List (AVLIndexNode κ))
    (records : List Int) : Prop :=
  ∃ cNode, Returns (si.rangeTraverse si.handOver · si.header.rootPointer default first last ([], []))
    (cNode, ns, records)

/-- The nodes that `rangeSearch` visits, whether or not their duplicates end. -/
def VisitsNodes (si : AVLIndex κ) (first last : κ) (ns : List (AVLIndexNode κ)) : Prop :=
  ∃ cNode, Returns (si.rangeTraverse (fun _ n ns => some (ns ++ [n])) · si.header.rootPointer default
    first last []) (cNode, ns)

/-- The duplicates of the node end. -/
def DuplicatesEnd (si : AVLIndex κ) (n : AVLIndexNode κ) : Prop :=
  ∃ chain, DupChain avlDuplicatesLayout si.duplicatesFile n.dupPos chain

/-- One node of `rangeSearch`: the left subtree, the node, the right subtree. -/
theorem rangeSearchNode_succ (hn : si.read p = some n) (fuel : Nat) (records : List Int) :
    si.rangeSearchNode (fuel + 1) p first last records =
      (if first < n.data then si.rangeSearchNode fuel n.leftChildren first last records
        else some records).bind fun records =>
      (if first ≤ n.data ∧ n.data ≤ last then si.getAllRawCurrentRecords fuel n records
        else some records).bind fun records =>
      if n.data < last then si.rangeSearchNode fuel n.rightChildren first last records
        else some records := by
  rw [rangeSearchNode, if_neg (ne_neg_one_of_read hn), hn]
  split_ifs <;> simp only [*, and_self, if_true, if_false, Option.bind_eq_bind, Option.bind_some]

omit [KeyType κ] in
/-- Two calls in sequence that are the projections of two others. -/
theorem bind_eq_map {α β γ δ : Type} {o : Option α} {o' : Option β} {f : α → Option γ}
    {g : β → Option δ} {π : β → α} {ρ : δ → γ} (ho : o = o'.map π)
    (h : ∀ b, f (π b) = (g b).map ρ) : o.bind f = (o'.bind g).map ρ := by
  subst ho
  cases o' with
  | none => rfl
  | some b => exact h b

/-- The nodes are noted in the same run of `rangeSearch`. -/
theorem rangeSearchNode_eq : ∀ (fuel : Nat) (p : Int) (c : AVLIndexNode κ)
    (ns : List (AVLIndexNode κ)) (records : List Int),
    si.rangeSearchNode fuel p first last records =
      (si.rangeTraverse si.handOver fuel p c first last (ns, records)).map (·.2.2)
  | 0, _, _, _, _ => rfl
  | fuel + 1, p, c, ns, records => by
    by_cases hp : p = -1
    · rw [rangeSearchNode, rangeTraverse, if_pos hp, if_pos hp, Option.map_some]
    cases hn : si.read p with
    | none => rw [rangeSearchNode, rangeTraverse, if_neg hp, if_neg hp, hn]; rfl
    | some n =>
      rw [rangeTraverse_succ hn, rangeSearchNode_succ hn]
      refine bind_eq_map (π := (·.2)) ?_ fun (ns, records) =>
        bind_eq_map (π := (·.2)) ?_ fun (ns, records) => ?_
      · split_ifs
        · rw [rangeSearchNode_eq fuel _ n ns, Option.map_map]
          rfl
        · rfl
      · split_ifs
        · rw [handOver, Option.map_map]
          exact Option.map_id'.symm
        · rfl
      · split_ifs
        · rw [rangeSearchNode_eq fuel _ n ns, Option.map_map, Option.map_map]
          rfl
        · rfl

omit [KeyType κ] in
/-- Nodes with chains that end can all be handed over. -/
theorem visits_handOver : ∀ (ns ns0 : List (AVLIndexNode κ)) (records : List Int),
    (∀ n ∈ ns, si.DuplicatesEnd n) →
    ∃ records', Visits si.handOver ns (ns0, records) (ns0 ++ ns, records')
  | [], ns0, records, _ => ⟨records, by simpa using .nil⟩
  | n :: ns, ns0, records, h => by
    obtain ⟨chain, hchain⟩ := h n (.head _)
    obtain ⟨records', hv⟩ := visits_handOver ns (ns0 ++ [n]) _ fun m hm => h m (.tail _ hm)
    rw [List.append_assoc] at hv
    exact ⟨records', .cons ((getAllRaw_returns ⟨rfl, chain, hchain, rfl⟩ records).map _) hv⟩

omit [KeyType κ] in
/-- Nodes that are visited are gathered in their order. -/
theorem visits_nodes : ∀ ns ns0 : List (AVLIndexNode κ),
    Visits (fun _ n ns => some (ns ++ [n])) ns ns0 (ns0 ++ ns)
  | [], ns0 => by simpa using .nil
  | n :: ns, ns0 => by
    have hv := visits_nodes ns (ns0 ++ [n])
    rw [List.append_assoc] at hv
    exact .cons (.of_eq fun _ => rfl) hv

/-- The nodes of the tree with a key of the range, in key order. -/
def nodesIn (t : AvlTree Int (AVLIndexNode κ)) (first last : κ) : List (AVLIndexNode κ) :=
  t.toList.filter fun n => first ≤ n.data ∧ n.data ≤ last

/-- The nodes of a search tree in the range are visited. -/
theorem Linked.visitsNodes (h : si.Linked si.header.rootPointer t)
    (hsorted : SortedBy (·.data) t.toList) (first last : κ) :
    si.VisitsNodes first last (nodesIn t first last) :=
  h.rangeTraverse_returns default hsorted (visits_nodes _ _)

/-- The nodes that are visited are determined. -/
theorem VisitsNodes.unique {ns ms : List (AVLIndexNode κ)} (h : si.VisitsNodes first last ns)
    (h' : si.VisitsNodes first last ms) : ns = ms := by
  obtain ⟨c, hc⟩ := h
  obtain ⟨c', hc'⟩ := h'
  exact (Prod.mk.inj (hc.unique hc')).2

/-- A key is in at most one node of a search tree. -/
theorem nodesIn_self (hsorted : SortedBy (·.data) t.toList) :
    nodesIn t k k = [n] ↔ n ∈ t.toList ∧ n.data = k := by
  have hmem : ∀ m, m ∈ nodesIn t k k ↔ m ∈ t.toList ∧ m.data = k := fun m => by
    rw [nodesIn, List.mem_filter, decide_eq_true_iff]
    exact and_congr_right fun _ => ⟨fun h => le_antisymm h.2 h.1, fun h => ⟨h.ge, h.le⟩⟩
  constructor
  · intro h
    exact (hmem n).1 (h ▸ List.mem_singleton_self n)
  · intro h
    have hone : SortedBy (·.data) [n] := SortedBy.cons_iff.2 ⟨by simp, .nil⟩
    refine (hsorted.filter _).eq_of_mem_iff hone fun m => ?_
    rw [List.mem_singleton]
    refine (hmem m).trans ⟨fun hm => hsorted.eq_of_key hm.1 h.1 (hm.2.trans h.2.symm), ?_⟩
    rintro rfl
    exact h

/-- On every file whose links from the root form a search tree, in balance or not, and for all
bounds: `rangeSearch` comes back, with the nodes of the range handed to `getAllRawCurrentRecords`
each once and in key order, exactly when the duplicates of these nodes end. Its traversal visits
these nodes in any case, and the node-level `search` finds a node exactly when the traversal for its
key alone visits this node and no other. -/
theorem rangeSearch_exact_iff (h : si.Linked si.header.rootPointer t)
    (hsorted : SortedBy (·.data) t.toList) :
    (∀ first last, (∃ records, si.HandsOver first last (nodesIn t first last) records) ↔
      ∀ n ∈ t.toList, first ≤ n.data → n.data ≤ last → si.DuplicatesEnd n) ∧
    (∀ first last ns records, si.HandsOver first last ns records →
      Returns (si.rangeSearch · first last) (.ok records)) ∧
    (∀ first last, si.VisitsNodes first last (nodesIn t first last)) ∧
    ∀ k n, Returns (si.searchNode · si.header.rootPointer k) (.ok n) ↔ si.VisitsNodes k k [n] := by
  refine ⟨fun first last => ⟨?_, fun hend => ?_⟩, fun first last ns records hret => ?_,
    h.visitsNodes hsorted, fun k n => ?_⟩
  · rintro ⟨records, c, hret⟩ n hn h1 h2
    obtain ⟨fuel, hfuel⟩ := hret.exists
    obtain ⟨fuel, s1, s2, hvisit⟩ := h.visit_of_rangeTraverse hsorted hfuel n
      (List.mem_filter.2 ⟨hn, decide_eq_true ⟨h1, h2⟩⟩)
    obtain ⟨res, hres, -⟩ := Option.map_eq_some_iff.1 hvisit
    exact exists_dupChain_of_loop hres
  · obtain ⟨records, hv⟩ := visits_handOver (nodesIn t first last) [] [] fun n hn => by
      have hn := List.mem_filter.1 hn
      exact hend n hn.1 (of_decide_eq_true hn.2).1 (of_decide_eq_true hn.2).2
    exact ⟨records, h.rangeTraverse_returns default hsorted hv⟩
  · obtain ⟨c, hret⟩ := hret
    refine (hret.map fun res => (.ok res.2.2 : Except Exn (List Int))).congr fun fuel => ?_
    rw [rangeSearch, rangeSearchNode_eq fuel _ default [], Option.map_map]
    rfl
  · have hiff : si.VisitsNodes k k [n] ↔ nodesIn t k k = [n] :=
      ⟨fun hv => (h.visitsNodes hsorted k k).unique hv, fun he => he ▸ h.visitsNodes hsorted k k⟩
    obtain ⟨hfound, hmissing⟩ := h.searchNode_returns (k := k) hsorted
    rw [hiff, nodesIn_self hsorted]
    refine ⟨fun hret => ?_, fun hn => hfound n hn.1 hn.2⟩
    by_cases hk : ∃ m ∈ t.toList, m.data = k
    · obtain ⟨m, hm, hmk⟩ := hk
      cases hret.unique (hfound m hm hmk)
      exact ⟨hm, hmk⟩
    · cases hret.unique (hmissing fun m hm hmk => hk ⟨m, hm, hmk⟩)

/-- A tree that is not in balance: a chain of links to the right. -/
theorem rangeSearch_exact_iff_sample : ∃ si : AVLIndex Int, ∃ t records, t.toList.length = 3 ∧
    si.HandsOver 6 8 (nodesIn t 6 8) records := by
  let n5 : AVLIndexNode Int := ⟨⟨5, 0, -1⟩, 32, -1, 152, -1, 0⟩
  let n7 : AVLIndexNode Int := ⟨⟨7, 64, -1⟩, 152, -1, 272, -1, 0⟩
  let n9 : AVLIndexNode Int := ⟨⟨9, 128, -1⟩, 272, -1, -1, -1, 0⟩
  let si : AVLIndex Int :=
    { pk := false, header := ⟨32, -1⟩, fileHeader := ⟨32, -1⟩, nodes := [n5, n7, n9]
      duplicatesFile := [] }
  let t : AvlTree Int (AVLIndexNode Int) := .node 32 .nil n5 (.node 152 .nil n7 (.node 272 .nil n9 .nil))
  have h : si.Linked 32 t := ⟨rfl, rfl, rfl, rfl, rfl, rfl, rfl, rfl, rfl, rfl⟩
  have hend : ∀ n ∈ t.toList, si.DuplicatesEnd n := by
    intro n hn
    rcases hn with _ | ⟨_, _ | ⟨_, _ | ⟨_, hn⟩⟩⟩
    · exact ⟨[], .nil⟩
    · exact ⟨[], .nil⟩
    · exact ⟨[], .nil⟩
    · cases hn
  obtain ⟨records, hret⟩ := ((rangeSearch_exact_iff h (by simp [SortedBy, t, n5, n7, n9])).1 6 8).2
    fun n hn _ _ => hend n hn
  exact ⟨si, t, records, rfl, hret⟩

/-- The range of the only key of an index. -/
theorem rangeSearch_not_returns : ∃ si : AVLIndex Int, ∃ t, LoadRun [(5, 1)] si ∧
    si.Linked si.header.rootPointer t ∧ SortedBy (·.data) t.toList ∧
      ¬ ∃ res, Returns (si.rangeSearch · 5 5) res := by
  let n5 : AVLIndexNode Int := ⟨⟨5, 1, 0⟩, 32, -1, -1, -1, 0⟩
  let t : AvlTree Int (AVLIndexNode Int) := .node 32 .nil n5 .nil
  have hrun : LoadRun [((5 : Int), 1)] _ := .add .start (.of_add 5 fun _ => rfl)
  have hsorted : SortedBy (·.data) t.toList := by simp [SortedBy, t]
  refine ⟨_, t, hrun, ⟨rfl, rfl, rfl, rfl⟩, hsorted, ?_⟩
  rintro ⟨res, hret⟩
  obtain ⟨fuel, hfuel⟩ := hret.exists
  obtain ⟨records, hrecords, -⟩ := Option.map_eq_some_iff.1 hfuel
  rw [rangeSearchNode_eq fuel _ default []] at hrecords
  obtain ⟨res, htraverse, -⟩ := Option.map_eq_some_iff.1 hrecords
  obtain ⟨fuel, s1, s2, hvisit⟩ := Linked.visit_of_rangeTraverse (t := t) ⟨rfl, rfl, rfl, rfl⟩ hsorted
    htraverse n5 (by simp [t, n5])
  obtain ⟨raw, hraw, -⟩ := Option.map_eq_some_iff.1 hvisit
  rw [hrun.endless.getAllRaw_eq_none zero_ne_neg_one] at hraw
  cases hraw

end AVLIndex

end Rdbms
