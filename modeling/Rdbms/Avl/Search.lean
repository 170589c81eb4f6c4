import Rdbms.Avl.Model

/-!
# Lookup in the AVL index

`search` and `range_search` follow the chain of a node through the duplicates file until a
`dup_pos` is `-1`. `add` and `bulk_insert` make nodes whose `dup_pos` is default-constructed, which
is the offset `0`, and a duplicate takes over the `dup_pos` of the node it hangs off. So no chain
ends (`Endless`), and no lookup of a key that is there comes back.
-/

namespace Rdbms

namespace AVLIndex
variable {κ : Type} [KeyType κ]

/-- The loop of `bulk_insert`. -/
def insertAll (fuel : Nat) : AVLIndex κ → List (κ × Int) → Option (Outcome (AVLIndex κ) Unit)
  | si, [] => some (.ok (), si)
  | si, (data, rawPos) :: records => do
    match ← insert fuel si si.header.rootPointer { data, rawPos } with
    | (.error e, si) => some (.error e, si)
    | (.ok (), si) => insertAll fuel si records

/-- `bulk_insert`. -/
def bulkInsert (si : AVLIndex κ) (fuel : Nat) (records : List (κ × Int)) :
    Option (Outcome (AVLIndex κ) (List Int × List Bool)) :=
  if records = [] then some (.ok ([], []), si)
  else
    (insertAll fuel si records).map fun
      | (.error _, si) => (.error (.runtimeError "Couldn't load records"), si)
      | (.ok (), si) => (.ok ([], []), si)

/-- `getAllRawCurrentRecords` on the duplicates file of the index. -/
def getAllRawCurrentRecords (si : AVLIndex κ) (fuel : Nat) (node : AVLIndexNode κ)
    (records : List Int) : Option (List Int) :=
  Rdbms.getAllRawCurrentRecords avlDuplicatesLayout si.duplicatesFile fuel node records

/-- `search`. -/
def search (si : AVLIndex κ) (fuel : Nat) (item : κ) : Option (Except Exn (List Int)) := do
  match ← si.searchNode fuel si.header.rootPointer item with
  | .error _ => some (.error (.runtimeError "Couldn't search"))
  | .ok searchNode => (si.getAllRawCurrentRecords fuel searchNode []).map .ok

/-- `rangeSearch`, from a node. -/
def rangeSearchNode (si : AVLIndex κ) : Nat → Int → κ → κ → List Int → Option (List Int)
  | 0, _, _, _, _ => none
  | fuel + 1, cPointer, first, last, records =>
    if cPointer = -1 then some records
    else do
      let cNode ← si.read cPointer
      let records ←
        if first < cNode.data then
          rangeSearchNode si fuel cNode.leftChildren first last records
        else some records
      let records ←
        if first ≤ cNode.data ∧ cNode.data ≤ last then
          si.getAllRawCurrentRecords fuel cNode records
        else some records
      if cNode.data < last then
        rangeSearchNode si fuel cNode.rightChildren first last records
      else some records

/-- `range_search`. -/
def rangeSearch (si : AVLIndex κ) (fuel : Nat) (start last : κ) :
    Option (Except Exn (List Int)) :=
  (si.rangeSearchNode fuel si.header.rootPointer start last []).map .ok

/-! ## Chains without an end -/

variable {si si' : AVLIndex κ} {n : AVLIndexNode κ} {p : Int} {fuel : Nat} {k : κ}
  {log : List (κ × Int)} {res : Except Exn Unit}

/-- No record of the files ends a chain. -/
structure Endless (si : AVLIndex κ) : Prop where
  nodes : ∀ n ∈ si.nodes, n.dupPos ≠ -1
  duplicatesFile : ∀ n ∈ si.duplicatesFile, n.dupPos ≠ -1

/-- A default-constructed offset is no end. -/
theorem zero_ne_neg_one : (0 : Int) ≠ -1 := by decide

namespace Endless

section
omit [KeyType κ]

/-- No chain of a node that is read ends. -/
theorem read (h : si.Endless) (hr : si.read p = some n) : n.dupPos ≠ -1 :=
  h.nodes n (Layout.mem_of_read hr)

/-- A chain that does not end uses up any fuel. -/
theorem getAllRaw_eq_none (h : si.Endless) (hn : n.dupPos ≠ -1) (records : List Int) :
    si.getAllRawCurrentRecords fuel n records = none := by
  refine Option.eq_none_iff_forall_ne_some.2 fun res hres => ?_
  refine loop_of_inv (I := fun s : AVLIndexNode κ × Bool × List Int => s.1.dupPos ≠ -1)
    (Q := fun _ => False) ?_ ?_ hn hres
  · rintro ⟨sir, good, recs⟩ s' hsir hbody
    rw [getAllRawBody, if_pos (show (IndexRecord.toRecord sir).dupPos ≠ -1 from hsir)] at hbody
    cases hbody
    show (moveReadRecord avlDuplicatesLayout si.duplicatesFile good sir.dupPos sir).1.dupPos ≠ -1
    unfold moveReadRecord
    split
    · next hread => exact h.duplicatesFile _ (Layout.mem_of_read hread)
    · exact hsir
  · rintro ⟨sir, good, recs⟩ r hsir hbody
    rw [getAllRawBody, if_pos (show (IndexRecord.toRecord sir).dupPos ≠ -1 from hsir)] at hbody
    cases hbody

/-! ### Writing -/

/-- A node with a chain that does not end may be written. -/
theorem write (h : si.Endless) (hw : si.write p n = some si') (hn : n.dupPos ≠ -1) :
    si'.Endless := by
  unfold AVLIndex.write at hw
  split at hw
  · cases hw
  · next i hi =>
    split_ifs at hw
    cases hw
    refine ⟨fun m hm => ?_, h.duplicatesFile⟩
    simp only [Layout.write, hi] at hm
    split_ifs at hm
    · rcases List.mem_append.1 hm with hm | hm
      · exact h.nodes m hm
      · exact List.mem_singleton.1 hm ▸ hn
    · rcases List.mem_or_eq_of_mem_set hm with hm | rfl
      · exact h.nodes m hm
      · exact hn

/-- A new header ends no chain. -/
theorem writeHeader (h : si.Endless) (header : AVLIndexHeader) : (si.writeHeader header).Endless :=
  ⟨h.nodes, h.duplicatesFile⟩

/-- `updateHeigth` ends no chain. -/
theorem updateHeigth (h : si.Endless) (hu : si.updateHeigth p = some si') : si'.Endless := by
  unfold AVLIndex.updateHeigth at hu
  split_ifs at hu
  · cases hu
    exact h
  · simp only [Option.bind_eq_bind, Option.bind_eq_some_iff] at hu
    obtain ⟨node, hread, _, -, _, -, hw⟩ := hu
    have hn := h.read hread
    exact h.write hw hn

end

omit [KeyType κ] in
/-- `leftRotation` ends no chain. -/
theorem leftRotation (h : si.Endless) (hr : si.leftRotation p = some si') : si'.Endless := by
  unfold AVLIndex.leftRotation at hr
  simp only [Option.bind_eq_bind, Option.bind_eq_some_iff] at hr
  obtain ⟨a, ha, b, hb, s1, h1, s2, h2, s3, h3, h4⟩ := hr
  have hna := h.read ha
  have hnb := h.read hb
  have e1 := h.write h1 hnb
  have e2 := e1.write h2 hna
  exact (e2.updateHeigth h3).updateHeigth h4

omit [KeyType κ] in
/-- `rightRotation` ends no chain. -/
theorem rightRotation (h : si.Endless) (hr : si.rightRotation p = some si') : si'.Endless := by
  unfold AVLIndex.rightRotation at hr
  simp only [Option.bind_eq_bind, Option.bind_eq_some_iff] at hr
  obtain ⟨a, ha, b, hb, s1, h1, s2, h2, s3, h3, h4⟩ := hr
  have hna := h.read ha
  have hnb := h.read hb
  have e1 := h.write h1 hnb
  have e2 := e1.write h2 hna
  exact (e2.updateHeigth h3).updateHeigth h4

omit [KeyType κ] in
/-- `balance` ends no chain. -/
theorem balance (h : si.Endless) (hb : si.balance p = some si') : si'.Endless := by
  unfold AVLIndex.balance at hb
  split_ifs at hb
  · cases hb
    exact h
  simp only [Option.bind_eq_bind, Option.bind_eq_some_iff] at hb
  obtain ⟨node, -, factor, -, hb⟩ := hb
  split_ifs at hb
  · obtain ⟨left, -, hb⟩ := Option.bind_eq_some_iff.1 hb
    split_ifs at hb
    · obtain ⟨s1, h1, h2⟩ := Option.bind_eq_some_iff.1 hb
      exact (h.leftRotation h1).rightRotation h2
    · exact h.rightRotation hb
  · obtain ⟨right, -, hb⟩ := Option.bind_eq_some_iff.1 hb
    split_ifs at hb
    · obtain ⟨s1, h1, h2⟩ := Option.bind_eq_some_iff.1 hb
      exact (h.rightRotation h1).leftRotation h2
    · exact h.leftRotation hb
  · cases hb
    exact h

omit [KeyType κ] in
/-- `updateBalance` ends no chain. -/
theorem updateBalance (h : si.Endless) (hu : si.updateBalance p = some si') : si'.Endless := by
  unfold AVLIndex.updateBalance at hu
  simp only [Option.bind_eq_bind, Option.bind_eq_some_iff] at hu
  obtain ⟨s1, h1, balanced, -, h2⟩ := hu
  have e1 := h.updateHeigth h1
  split_ifs at h2
  · exact e1.balance h2
  · cases h2
    exact e1

/-! ### Insertion -/

omit [KeyType κ] in
/-- `insertNode` ends no chain. -/
theorem insertNode (h : si.Endless) (hn : n.dupPos ≠ -1) (hi : si.insertNode n = some (p, si')) :
    si'.Endless := by
  unfold AVLIndex.insertNode allocate at hi
  simp only [Option.bind_eq_bind, Option.bind_eq_some_iff] at hi
  obtain ⟨⟨q, s1⟩, halloc, s2, hw, heq⟩ := hi
  cases heq
  split_ifs at halloc
  · obtain ⟨node, -, heq⟩ := Option.bind_eq_some_iff.1 halloc
    cases heq
    exact (h.writeHeader _).write hw hn
  · cases halloc
    exact h.write hw hn

omit [KeyType κ] in
/-- A duplicate takes over the chain of the node it hangs off. -/
theorem insertDuplicate (h : si.Endless) {dup : AVLIndexNode κ} (hn : n.dupPos ≠ -1)
    (hi : si.insertDuplicate n dup = some si') : si'.Endless := by
  have hfile : ({ si with duplicatesFile :=
      si.duplicatesFile ++ [{ dup with dupPos := n.dupPos }] } : AVLIndex κ).Endless := by
    refine ⟨h.nodes, fun m hm => ?_⟩
    rcases List.mem_append.1 hm with hm | hm
    · exact h.duplicatesFile m hm
    · exact List.mem_singleton.1 hm ▸ hn
  exact hfile.write hi Layout.pos_ne_neg_one

omit [KeyType κ] in
/-- The end of `insert` ends no chain. -/
theorem insertEnd {res : Except Exn Unit} {out : Outcome (AVLIndex κ) Unit} (h : si.Endless)
    (hi : AVLIndex.insertEnd p (res, si) = some out) : out.2.Endless := by
  cases res with
  | error e =>
    cases hi
    exact h
  | ok u =>
    obtain ⟨s1, h1, rfl⟩ := Option.map_eq_some_iff.1 hi
    exact h.updateBalance h1

omit [KeyType κ] in
/-- The new node and its parent, which links to it. -/
theorem insertChild (h : si.Endless) {c iNode : AVLIndexNode κ} {s1 s2 : AVLIndex κ} {q : Int}
    {out : Outcome (AVLIndex κ) Unit} (hi : iNode.dupPos ≠ -1)
    (h1 : si.insertNode iNode = some (q, s1)) (h2 : s1.write p c = some s2) (hc : c.dupPos ≠ -1)
    (h3 : AVLIndex.insertEnd p (.ok (), s2) = some out) : out.2.Endless :=
  ((h.insertNode hi h1).write h2 hc).insertEnd h3

/-- No chain ends after an `insert`. -/
theorem insert : ∀ {fuel : Nat} {p : Int} {si : AVLIndex κ} {out : Outcome (AVLIndex κ) Unit},
    si.Endless → n.dupPos ≠ -1 → AVLIndex.insert fuel si p n = some out → out.2.Endless
  | 0, _, _, _, _, _, hi => nomatch hi
  | fuel + 1, p, si, out, h, hn, hi => by
    unfold AVLIndex.insert at hi
    by_cases hp : p = -1
    · -- the first node
      rw [if_pos hp] at hi
      obtain ⟨s1, hroot, rfl⟩ := Option.map_eq_some_iff.1 hi
      unfold insertRoot at hroot
      obtain ⟨s2, hw, heq⟩ := Option.bind_eq_some_iff.1 hroot
      cases heq
      exact (h.write hw hn).writeHeader _
    rw [if_neg hp] at hi
    obtain ⟨c, hread, hi⟩ := Option.bind_eq_some_iff.1 hi
    have hc := h.read hread
    split_ifs at hi
    · obtain ⟨⟨res, s1⟩, hrec, hend⟩ := Option.bind_eq_some_iff.1 hi
      exact (insert h hn hrec).insertEnd hend
    · obtain ⟨⟨q, s1⟩, h1, hi⟩ := Option.bind_eq_some_iff.1 hi
      obtain ⟨s2, h2, h3⟩ := Option.bind_eq_some_iff.1 hi
      exact h.insertChild hn h1 h2 hc h3
    · obtain ⟨⟨res, s1⟩, hrec, hend⟩ := Option.bind_eq_some_iff.1 hi
      exact (insert h hn hrec).insertEnd hend
    · obtain ⟨⟨q, s1⟩, h1, hi⟩ := Option.bind_eq_some_iff.1 hi
      obtain ⟨s2, h2, h3⟩ := Option.bind_eq_some_iff.1 hi
      exact h.insertChild hn h1 h2 hc h3
    · cases hi
      exact h
    · obtain ⟨s1, hdup, rfl⟩ := Option.map_eq_some_iff.1 hi
      exact h.insertDuplicate hc hdup

/-- No chain ends after an `add`. -/
theorem add {v : Int} {out : Outcome (AVLIndex κ) (List Int)} (h : si.Endless)
    (ha : si.add fuel k v = some out) : out.2.Endless := by
  obtain ⟨⟨res, s1⟩, hi, rfl⟩ := Option.map_eq_some_iff.1 ha
  have h1 := h.insert zero_ne_neg_one hi
  cases res <;> exact h1

/-- No chain ends after the loop of `bulk_insert`. -/
theorem insertAll : ∀ {records : List (κ × Int)} {si : AVLIndex κ}
    {out : Outcome (AVLIndex κ) Unit}, si.Endless →
    AVLIndex.insertAll fuel si records = some out → out.2.Endless
  | [], _, _, h, hi => by
    cases hi
    exact h
  | (data, rawPos) :: records, si, out, h, hi => by
    obtain ⟨⟨res, s1⟩, h1, h2⟩ := Option.bind_eq_some_iff.1 hi
    have e1 := h.insert zero_ne_neg_one h1
    cases res with
    | error e =>
      cases h2
      exact e1
    | ok u => exact insertAll e1 h2

/-- No chain ends after a `bulk_insert`. -/
theorem bulkInsert {records : List (κ × Int)} {out : Outcome (AVLIndex κ) (List Int × List Bool)}
    (h : si.Endless) (hb : si.bulkInsert fuel records = some out) : out.2.Endless := by
  unfold AVLIndex.bulkInsert at hb
  split_ifs at hb
  · cases hb
    exact h
  · obtain ⟨⟨res, s1⟩, hi, rfl⟩ := Option.map_eq_some_iff.1 hb
    have h1 := h.insertAll hi
    cases res <;> exact h1

/-! ### Lookup -/

/-- The node that is found has a chain that does not end. -/
theorem searchNode : ∀ {fuel : Nat} {p : Int}, si.Endless →
    si.searchNode fuel p k = some (.ok n) → n.dupPos ≠ -1
  | 0, _, _, hs => nomatch hs
  | fuel + 1, p, h, hs => by
    unfold AVLIndex.searchNode at hs
    by_cases hp : p = -1
    · rw [if_pos hp] at hs
      cases hs
    rw [if_neg hp] at hs
    obtain ⟨c, hread, hs⟩ := Option.bind_eq_some_iff.1 hs
    split_ifs at hs
    · exact searchNode h hs
    · exact searchNode h hs
    · cases hs
      exact h.read hread

/-- A lookup that finds its key does not come back. -/
theorem search_ne_ok (h : si.Endless) (res : List Int) : si.search fuel k ≠ some (.ok res) := by
  intro hs
  obtain ⟨node, hnode, hs⟩ := Option.bind_eq_some_iff.1 hs
  cases node with
  | error e => cases hs
  | ok n =>
    change (si.getAllRawCurrentRecords fuel n []).map _ = _ at hs
    rw [h.getAllRaw_eq_none (h.searchNode hnode)] at hs
    cases hs

end Endless

/-! ## Runs of insertions -/

/-- A run of `add` and `bulk_insert` calls on a fresh index with `PK = false`: what was added, and
the index after it. -/
inductive LoadRun : List (κ × Int) → AVLIndex κ → Prop
  | start : LoadRun [] (initIndex false)
  | add {log : List (κ × Int)} {si si' : AVLIndex κ} {k : κ} {v : Int} {res : Except Exn _} :
      LoadRun log si → Returns (si.add · k v) (res, si') → LoadRun (log ++ [(k, v)]) si'
  | bulkInsert {log records : List (κ × Int)} {si si' : AVLIndex κ} {res : Except Exn _} :
      LoadRun log si → Returns (si.bulkInsert · records) (res, si') →
      LoadRun (log ++ records) si'

/-- No chain ends after a run. -/
theorem LoadRun.endless (h : LoadRun log si) : si.Endless := by
  induction h with
  | start => exact ⟨nofun, nofun⟩
  | add _ hret ih =>
    obtain ⟨fuel, hfuel⟩ := hret.exists
    exact ih.add hfuel
  | bulkInsert _ hret ih =>
    obtain ⟨fuel, hfuel⟩ := hret.exists
    exact ih.bulkInsert hfuel

/-- `search` and `range_search` come back with the positions that were added under the key. -/
def FindsAll (si : AVLIndex κ) (log : List (κ × Int)) (k : κ) : Prop :=
  (∃ res, Returns (si.search · k) (.ok res) ∧ res.Perm ((log.filter (·.1 = k)).map (·.2))) ∧
    ∃ res, Returns (si.rangeSearch · k k) (.ok res) ∧
      res.Perm ((log.filter (·.1 = k)).map (·.2))

/-- No run leaves an index in which a lookup finds a key. -/
theorem not_findsAll_of_run (h : LoadRun log si) (k : κ) :
    (∀ fuel res, si.search fuel k ≠ some (.ok res)) ∧ ¬ si.FindsAll log k := by
  refine ⟨fun fuel res => h.endless.search_ne_ok res, ?_⟩
  rintro ⟨⟨res, hret, -⟩, -⟩
  obtain ⟨fuel, hfuel⟩ := hret.exists
  exact h.endless.search_ne_ok res hfuel

/-- One insertion. -/
theorem not_findsAll_of_run_sample : ∃ si : AVLIndex Int, LoadRun [(5, 1)] si ∧
    (∀ fuel res, si.search fuel 5 ≠ some (.ok res)) ∧ ¬ si.FindsAll [(5, 1)] 5 := by
  have r1 : LoadRun [((5 : Int), 1)] _ := .add .start (.of_add 5 fun _ => rfl)
  exact ⟨_, r1, not_findsAll_of_run r1 5⟩

/-- A lookup of the key of the first row. -/
theorem search_not_returns : ∃ si : AVLIndex Int, LoadRun [(5, 1)] si ∧ ¬ si.FindsAll [(5, 1)] 5 := by
  have r1 : LoadRun [((5 : Int), 1)] _ := .add .start (.of_add 5 fun _ => rfl)
  refine ⟨_, r1, ?_⟩
  rintro ⟨⟨res, hret, -⟩, -⟩
  obtain ⟨fuel, hfuel⟩ := hret.exists
  exact r1.endless.search_ne_ok res hfuel

end AVLIndex

end Rdbms
