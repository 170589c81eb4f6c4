import Rdbms.Avl.Remove
import Rdbms.Avl.Traverse

/-!
# Runs of insertions and deletions

After any run of `add` and `remove` calls on a fresh index that never removes the key of a root
with fewer than two children, the file is well formed and its keys are those of which the last call
was an insertion, so that is what `search` finds (`searchNode_of_run`). The removal of such a root
leaves the root pointer where it was: `found_of_run` still finds the only key of an index after it
has been removed.
-/

namespace Rdbms

/-- A call that changes an index. -/
inductive Op (κ : Type)
  | add (data : κ) (rawPos : Int)
  | remove (item : κ)
deriving DecidableEq

namespace Op
variable {κ : Type}

/-- The key of a call. -/
def key : Op κ → κ
  | add data _ => data
  | remove item => item

/-- Whether a call is an `add`. -/
def isAdd : Op κ → Bool
  | add .. => true
  | remove _ => false

end Op

/-- The last call with the key `k` was an insertion. -/
def LastAdded {κ : Type} [DecidableEq κ] (log : List (Op κ)) (k : κ) : Prop :=
  ∃ op, log.reverse.find? (·.key = k) = some op ∧ op.isAdd

namespace AVLIndex
variable {κ : Type} [KeyType κ] {si si' : AVLIndex κ} {t : AvlTree Int (Record κ)} {F : List Int}
  {log : List (Op κ)} {op : Op κ} {k : κ} {p : Int}

/-- Only a call for the key itself decides anew whether it was last added. -/
theorem lastAdded_append : LastAdded (log ++ [op]) k ↔
    if op.key = k then op.isAdd = true else LastAdded log k := by
  unfold LastAdded
  rw [List.reverse_append, List.reverse_singleton, List.singleton_append, List.find?_cons]
  by_cases h : op.key = k <;> simp [h]

/-- A run of calls on a fresh index with `PK = false`; `ok` holds of the index and the key before
each removal. -/
inductive OpRun (ok : AVLIndex κ → κ → Prop) : List (Op κ) → AVLIndex κ → Prop
  | start : OpRun ok [] (initIndex false)
  | add {log : List (Op κ)} {si si' : AVLIndex κ} {k : κ} {v : Int} {res : Except Exn (List Int)} :
      OpRun ok log si → Returns (si.add · k v) (res, si') → OpRun ok (log ++ [.add k v]) si'
  | remove {log : List (Op κ)} {si si' : AVLIndex κ} {k : κ} {res : Except Exn (List Int)} :
      OpRun ok log si → ok si k → Returns (si.remove · k) (res, si') →
      OpRun ok (log ++ [.remove k]) si'

/-- The node-level `search` in a tree of the file. -/
theorem searchNode_returns (h : si.Rep p t) (hsorted : SortedBy (·.data) t.toList) :
    (∀ y ∈ t.toList, y.data = k → ∃ n, Returns (si.searchNode · p k) (.ok n) ∧ n.toRecord = y) ∧
      ((∀ y ∈ t.toList, y.data ≠ k) → Returns (si.searchNode · p k)
        (.error (.runtimeError "No se ha encontrado el elemento!"))) := by
  obtain ⟨t', hlinked, rfl⟩ := h.linked
  rw [AvlTree.toList_map] at hsorted ⊢
  obtain ⟨hfound, hmissing⟩ := hlinked.searchNode_returns (k := k)
    (SortedBy.congr_map (by simp) hsorted)
  refine ⟨fun y hy hk => ?_, fun hno => hmissing fun n hn => hno _ (List.mem_map_of_mem hn)⟩
  obtain ⟨n, hn, rfl⟩ := List.mem_map.1 hy
  exact ⟨n, hfound n hn hk, rfl⟩

/-- The index holds the keys of which the last call was an insertion. -/
def Holds (si : AVLIndex κ) (log : List (Op κ)) : Prop :=
  si.pk = false ∧ ∃ t F, si.WellFormed t F ∧ ∀ k, k ∈ t.toList.map (·.data) ↔ LastAdded log k

/-- `add` keeps the index in step with the run. -/
theorem Holds.add (h : si.Holds log) (k : κ) (v : Int) :
    ∃ si', Returns (si.add · k v) (.ok [v], si') ∧ si'.Holds (log ++ [.add k v]) := by
  obtain ⟨hpk, t, F, hwf, hlog⟩ := h
  obtain ⟨si', t', F', hret, hadd⟩ := hwf.add hpk k v
  refine ⟨si', hret, hadd.pk.trans hpk, t', F', hadd.wellFormed, fun x => ?_⟩
  rw [hadd.toList, mem_keys_insertSorted (a := { data := k, rawPos := v }) (f := si.pointDuplicate)
    hwf.sorted fun _ => rfl, lastAdded_append, hlog]
  by_cases hx : k = x
  · simp [hx, Op.key, Op.isAdd]
  · simp [hx, Ne.symm hx, Op.key]

/-- So does `remove`, but for a key at a thin root. -/
theorem Holds.remove (h : si.Holds log) (hk : ¬ si.AtThinRoot k) :
    ∃ pos si', Returns (si.remove · k) (.ok pos, si') ∧ si'.Holds (log ++ [.remove k]) := by
  obtain ⟨hpk, t, F, hwf, hlog⟩ := h
  obtain ⟨pos, si', t', F', hret, hwf', hpk', htoList⟩ := hwf.remove hk
  refine ⟨pos, si', hret, hpk'.trans hpk, t', F', hwf', fun x => ?_⟩
  rw [htoList, lastAdded_append, ← hlog x]
  by_cases hx : k = x
  · simp [hx, Op.key, Op.isAdd]
  · simp only [Op.key, if_neg hx, List.mem_map, List.mem_filter]
    refine exists_congr fun y => ⟨fun ⟨h1, h2⟩ => ⟨h1.1, h2⟩, fun ⟨h1, h2⟩ => ⟨⟨h1, ?_⟩, h2⟩⟩
    simpa [h2] using Ne.symm hx

/-- After every run the index is in step with it. -/
theorem OpRun.holds (h : OpRun (¬ AtThinRoot · ·) log si) : si.Holds log := by
  induction h with
  | start => exact ⟨rfl, .nil, [], WellFormed.initIndex false, by simp [LastAdded]⟩
  | add _ hret ih =>
    obtain ⟨si'', hret', hholds⟩ := ih.add _ _
    cases hret.unique hret'
    exact hholds
  | remove _ hk hret ih =>
    obtain ⟨pos, si'', hret', hholds⟩ := ih.remove hk
    cases hret.unique hret'
    exact hholds

/-- After every run that does not remove the key of a root with fewer than two children: the
node-level `search` comes back for every key and finds it when, and only when, the last call with
the key was an insertion, and so the next such call comes back. -/
theorem searchNode_of_run (h : OpRun (¬ AtThinRoot · ·) log si) :
    (∀ k, ∃ res, Returns (si.searchNode · si.header.rootPointer k) res ∧
      ((∃ n, res = .ok n ∧ n.data = k) ↔ LastAdded log k)) ∧
    (∀ k v, ∃ si', Returns (si.add · k v) (.ok [v], si')) ∧
    ∀ k, ¬ si.AtThinRoot k → ∃ pos si', Returns (si.remove · k) (.ok pos, si') := by
  have hholds := h.holds
  refine ⟨fun k => ?_, fun k v => ?_, fun k hk => ?_⟩
  · obtain ⟨-, t, F, hwf, hlog⟩ := hholds
    obtain ⟨hfound, hmissing⟩ := searchNode_returns (k := k) hwf.rep hwf.sorted
    by_cases hk : k ∈ t.toList.map (·.data)
    · obtain ⟨y, hy, rfl⟩ := List.mem_map.1 hk
      obtain ⟨n, hret, rfl⟩ := hfound y hy rfl
      exact ⟨_, hret, fun _ => (hlog _).1 hk, fun _ => ⟨n, rfl, rfl⟩⟩
    · refine ⟨_, hmissing fun y hy hyk => hk (List.mem_map.2 ⟨y, hy, hyk⟩), ?_,
        fun hlast => absurd ((hlog k).2 hlast) hk⟩
      rintro ⟨n, hn, -⟩
      cases hn
  · obtain ⟨si', hret, -⟩ := hholds.add k v
    exact ⟨si', hret⟩
  · obtain ⟨pos, si', hret, -⟩ := hholds.remove hk
    exact ⟨pos, si', hret⟩

/-- The only key of an index is found after it has been removed. -/
theorem found_of_run : ∃ si : AVLIndex Int,
    OpRun (fun _ _ => True) [.add 5 1, .remove 5] si ∧ ¬ LastAdded [Op.add (5 : Int) 1, .remove 5] 5 ∧
      ∃ n, Returns (si.searchNode · si.header.rootPointer 5) (.ok n) ∧ n.data = 5 := by
  have r1 : OpRun (fun _ _ => True) [Op.add (5 : Int) 1] _ := .add .start (.of_add 5 fun _ => rfl)
  have r2 := r1.remove (k := 5) trivial (.of_add 5 fun _ => rfl)
  exact ⟨_, r2, (fun ⟨op, hop, hadd⟩ => by cases hop; cases hadd), _, .of_add 5 fun _ => rfl, rfl⟩

/-- A leaf is removed. -/
theorem searchNode_of_run_sample : ∃ si : AVLIndex Int,
    OpRun (¬ AtThinRoot · ·) [.add 5 1, .add 3 2, .remove 3] si ∧
      ∃ res, Returns (si.searchNode · si.header.rootPointer 3) res ∧
        ((∃ n, res = .ok n ∧ n.data = 3) ↔
          LastAdded [Op.add (5 : Int) 1, .add 3 2, .remove 3] 3) := by
  have r1 : OpRun (¬ AtThinRoot · ·) [Op.add (5 : Int) 1] _ := .add .start (.of_add 5 fun _ => rfl)
  have r2 := r1.add (k := 3) (v := 2) (.of_add 5 fun _ => rfl)
  have r3 := r2.remove (k := 3) (fun ⟨n, hn, hk, _⟩ => by cases hn; cases hk) (.of_add 5 fun _ => rfl)
  exact ⟨_, r3, (searchNode_of_run r3).1 3⟩

end AVLIndex

end Rdbms
