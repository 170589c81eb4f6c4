import Mathlib.Logic.Function.Basic
import Rdbms.Avl.Refine
import Rdbms.Avl.Run

/-!
# Indexes that share their stream

The objects of a key type have files of their own and one static stream. `add`, `search`, `remove`
and `range_search` open it at the start and close it at the end, but not when they throw;
`bulk_insert` closes it in both cases. A stream that is open when a call opens it has failed for
that call, and is closed at its end like any other.

So a `search` or an `add` that throws changes no file, but when it finds the stream closed it leaves
it open, and the next call works on a failed stream: an `add` comes back without having written
anything (`Failing.not_noTrace`). When the stream is open already nothing changes at all
(`Failing.noTrace`).
-/

namespace Rdbms

/-- The public calls of an index. -/
inductive AVLCall (κ : Type)
  | add (data : κ) (rawPos : Int)
  | search (item : κ)
  | remove (item : κ)
  | rangeSearch (start last : κ)
  | bulkInsert (records : List (κ × Int))

/-- The objects of a key type, and whether their stream is open. -/
structure AVLObjects (ι κ : Type) where
  objects : ι → AVLIndex κ
  isOpen : Bool

namespace AVLObjects
variable {ι κ : Type} [DecidableEq ι] [KeyType κ]

/-! ## Calls -/

/-- `file.open`: the stream is good when it was not open. -/
def openFile (w : AVLObjects ι κ) (memory : κ) (i : ι) : AVLStream κ where
  toAVLIndex := w.objects i
  good := !w.isOpen
  memory

/-- The end of a call on an object, with the stream left open or closed. -/
def put (w : AVLObjects ι κ) (i : ι) (s : AVLStream κ) (isOpen : Bool) : AVLObjects ι κ where
  objects := Function.update w.objects i s.toAVLIndex
  isOpen

/-- `add`. -/
def add (w : AVLObjects ι κ) (fuel : Nat) (memory : κ) (i : ι) (data : κ) (rawPos : Int) :
    Option (Outcome (AVLObjects ι κ) (List Int)) :=
  let s := w.openFile memory i
  (AVLStream.insert fuel s s.header.rootPointer s.fresh { data, rawPos }).map fun
    -- the stream stays open
    | (.error _, s) => (.error (.runtimeError "Couldn't add"), w.put i s true)
    | (.ok (), s) => (.ok [rawPos], w.put i s false)

/-- `search`. -/
def search (w : AVLObjects ι κ) (fuel : Nat) (memory : κ) (i : ι) (item : κ) :
    Option (Outcome (AVLObjects ι κ) (List Int)) := do
  let s := w.openFile memory i
  match ← AVLStream.searchNode fuel s s.header.rootPointer s.fresh item with
  | (.error _, s) => some (.error (.runtimeError "Couldn't search"), w.put i s true)
  | (.ok searchNode, s) =>
    (s.getAllRawCurrentRecords fuel searchNode []).map fun records =>
      (.ok records, w.put i s false)

/-- `remove`. -/
def remove (w : AVLObjects ι κ) (fuel : Nat) (memory : κ) (i : ι) (item : κ) :
    Option (Outcome (AVLObjects ι κ) (List Int)) :=
  let s := w.openFile memory i
  (AVLStream.erase fuel s s.header.rootPointer (-1) s.fresh item).map fun
    | (.error _, s) => (.error (.runtimeError "Couldn't erase"), w.put i s true)
    | (.ok (_, currentNode), s) => (.ok [currentNode.rawPos], w.put i s false)

/-- `range_search`. -/
def rangeSearch (w : AVLObjects ι κ) (fuel : Nat) (memory : κ) (i : ι) (start last : κ) :
    Option (Outcome (AVLObjects ι κ) (List Int)) :=
  let s := w.openFile memory i
  (AVLStream.rangeSearchNode fuel s s.header.rootPointer s.fresh start last []).map fun
    | (_, records, s) => (.ok records, w.put i s false)

/-- `bulk_insert`, which has no positions to return. -/
def bulkInsert (w : AVLObjects ι κ) (fuel : Nat) (memory : κ) (i : ι)
    (records : List (κ × Int)) : Option (Outcome (AVLObjects ι κ) (List Int)) :=
  if records = [] then some (.ok [], w)
  else
    (AVLStream.insertAll fuel (w.openFile memory i) records).map fun
      | (.error _, s) => (.error (.runtimeError "Couldn't load records"), w.put i s false)
      | (.ok (), s) => (.ok [], w.put i s false)

/-- A call on the object `i`; `memory` is the key in the nodes that it declares. -/
def call (w : AVLObjects ι κ) (fuel : Nat) (memory : κ) (i : ι) :
    AVLCall κ → Option (Outcome (AVLObjects ι κ) (List Int))
  | .add data rawPos => w.add fuel memory i data rawPos
  | .search item => w.search fuel memory i item
  | .remove item => w.remove fuel memory i item
  | .rangeSearch start last => w.rangeSearch fuel memory i start last
  | .bulkInsert records => w.bulkInsert fuel memory i records

/-- A sequence of calls: how each of them ended. -/
def run (fuel : Nat) : AVLObjects ι κ → List (κ × ι × AVLCall κ) →
    Option (List (Except Exn (List Int)) × AVLObjects ι κ)
  | w, [] => some ([], w)
  | w, (memory, i, c) :: calls => do
    let (res, w) ← w.call fuel memory i c
    let (results, w) ← run fuel w calls
    some (res :: results, w)

/-! ## Failing calls -/

/-- What the files of an object hold. -/
def files (w : AVLObjects ι κ) (i : ι) :
    AVLIndexHeader × List (AVLIndexNode κ) × List (AVLIndexNode κ) :=
  ((w.objects i).fileHeader, (w.objects i).nodes, (w.objects i).duplicatesFile)

/-- What a sequence of calls shows: how each of them ended, and the files after the last. -/
def observe (w : AVLObjects ι κ) (calls : List (κ × ι × AVLCall κ)) (fuel : Nat) :
    Option (List (Except Exn (List Int)) ×
      (ι → AVLIndexHeader × List (AVLIndexNode κ) × List (AVLIndexNode κ))) :=
  (w.run fuel calls).map fun (results, w) => (results, w.files)

/-- The step from `w` to `w'` changes no file, and every sequence of calls shows the same after it
as before it. -/
def NoTrace (w w' : AVLObjects ι κ) : Prop :=
  w'.files = w.files ∧
    ∀ calls out, Returns (w'.observe calls) out ↔ Returns (w.observe calls) out

/-- A `search` or an `add` that throws. -/
inductive Failing (w w' : AVLObjects ι κ) : Prop
  | search {memory : κ} {i : ι} {item : κ} {e : Exn} :
      Returns (w.call · memory i (.search item)) (.error e, w') → Failing w w'
  | add {memory : κ} {i : ι} {data : κ} {rawPos : Int} {e : Exn} :
      Returns (w.call · memory i (.add data rawPos)) (.error e, w') → Failing w w'

variable {w w' : AVLObjects ι κ} {s : AVLStream κ} {memory m : κ} {i : ι} {fuel : Nat} {k : κ}
  {v : Int} {e : Exn}

section
omit [KeyType κ]

/-- The object of a call is what the call leaves. -/
@[simp] theorem put_objects_self {b : Bool} : (w.put i s b).objects i = s.toAVLIndex :=
  Function.update_self ..

/-- A call leaves the other objects alone. -/
theorem put_objects_of_ne {j : ι} {b : Bool} (h : j ≠ i) :
    (w.put i s b).objects j = w.objects j := Function.update_of_ne h ..

/-- A call that leaves its object as it was changes the stream only. -/
theorem put_self {b : Bool} (h : s.toAVLIndex = w.objects i) :
    w.put i s b = { w with isOpen := b } := by
  rw [put, h, Function.update_eq_self]

end

/-- A `search` that throws leaves the stream open, and changes nothing else. -/
theorem search_error (h : w.search fuel memory i k = some (.error e, w')) :
    w' = { w with isOpen := true } := by
  obtain ⟨⟨_ | node, s⟩, hs, h⟩ := Option.bind_eq_some_iff.1 h
  · cases h
    exact put_self (AVLStream.searchNode_toAVLIndex hs)
  · obtain ⟨records, -, heq⟩ := Option.map_eq_some_iff.1 h
    cases heq

/-- An `add` that throws leaves the stream open, and changes nothing else. -/
theorem add_error (h : w.add fuel memory i k v = some (.error e, w')) :
    w' = { w with isOpen := true } := by
  obtain ⟨⟨_ | u, s⟩, hs, heq⟩ := Option.map_eq_some_iff.1 h
  · cases heq
    exact put_self (AVLStream.insert_error hs)
  · cases heq

/-- A failing call leaves the stream open, and changes nothing else. -/
theorem Failing.eq (h : w.Failing w') : w' = { w with isOpen := true } := by
  cases h with
  | search h =>
    obtain ⟨fuel, hfuel⟩ := h.exists
    exact search_error hfuel
  | add h =>
    obtain ⟨fuel, hfuel⟩ := h.exists
    exact add_error hfuel

/-- It leaves no trace when the stream is open. -/
theorem Failing.noTrace (h : w.Failing w') (ho : w.isOpen = true) : w.NoTrace w' := by
  have : w' = w := by rw [h.eq, ← ho]
  rw [this]
  exact ⟨rfl, fun _ _ => Iff.rfl⟩

/-! ## Well-formed files -/

section
omit [DecidableEq ι]
variable {si si' : AVLIndex κ} {t t' : AvlTree Int (Record κ)} {F F' : List Int} {data : κ}
  {rawPos : Int}

/-- An `add` that comes back has inserted its record. -/
theorem insert_of_add (h : Returns (si.add · data rawPos) (.ok [rawPos], si')) :
    Returns (AVLIndex.insert · si si.header.rootPointer { data, rawPos }) (.ok (), si') := by
  filter_upwards [h] with fuel hfuel
  obtain ⟨⟨_ | u, s1⟩, hins, heq⟩ := Option.map_eq_some_iff.1 hfuel
  · cases heq
  · cases heq
    exact hins

/-- What `insert` makes of a well-formed file: a well-formed file with the key, or the same file
when the key is a primary key that occurs. -/
inductive Inserted (si : AVLIndex κ) (t : AvlTree Int (Record κ)) (data : κ) (rawPos : Int) : Prop
  | ok {si' : AVLIndex κ} {t' : AvlTree Int (Record κ)} {F' : List Int} :
      Returns (AVLIndex.insert · si si.header.rootPointer { data, rawPos }) (.ok (), si') →
      si'.WellFormed t' F' → si'.pk = si.pk → data ∈ t'.toList.map (·.data) → Inserted si t data rawPos
  | refused {e : Exn} :
      Returns (AVLIndex.insert · si si.header.rootPointer { data, rawPos }) (.error e, si) →
      si.pk = true → data ∈ t.toList.map (·.data) → Inserted si t data rawPos

/-- What an `add` does, as an `insert` on a good stream. -/
theorem inserted_of_added {F : List Int} (h : si.WellFormed t F)
    (hret : Returns (si.add · data rawPos) (.ok [rawPos], si'))
    (hadd : si.Added t F data rawPos si' t' F') : Inserted si t data rawPos := by
  refine .ok (insert_of_add hret) hadd.wellFormed hadd.pk ?_
  rw [hadd.toList]
  exact (mem_keys_insertSorted (a := { data, rawPos }) (f := si.pointDuplicate) h.sorted
    fun _ => rfl).2 (.inl rfl)

/-- On well-formed files `insert` comes back, or refuses a key that is there. -/
theorem inserted (h : si.WellFormed t F) (data : κ) (rawPos : Int) :
    Inserted si t data rawPos := by
  by_cases hmem : data ∈ t.toList.map (·.data)
  · obtain ⟨y, hy, rfl⟩ := List.mem_map.1 hmem
    cases hpk : si.pk with
    | false =>
      obtain ⟨si', t', F', hret, hadd⟩ := h.add_mem hpk hy rawPos
      exact inserted_of_added h hret hadd
    | true => exact .refused (AVLIndex.insert_refused _ hpk h.rep h.sorted hy rfl) hpk hmem
  have hnew : ∀ y ∈ t.toList, y.data ≠ data := fun y hy e => hmem (List.mem_map.2 ⟨y, hy, e⟩)
  by_cases hnil : t = .nil
  · subst hnil
    obtain ⟨si', t', F', hret, hadd⟩ := h.add_empty data rawPos
    exact inserted_of_added h hret hadd
  · obtain ⟨si', t', F', hret, hadd⟩ := h.add_new hnil hnew rawPos
    exact inserted_of_added h hret hadd

/-- A file with other keys has other nodes. -/
theorem nodes_ne (h : si.WellFormed t F) (h' : si'.WellFormed t' F') (hk : k ∉ t.toList.map (·.data))
    (hk' : k ∈ t'.toList.map (·.data)) : si'.nodes ≠ si.nodes := by
  intro hn
  have hread : ∀ q, si'.read q = si.read q := fun q => by rw [AVLIndex.read, hn, AVLIndex.read]
  have hroot : si'.header.rootPointer = si.header.rootPointer := by rw [h'.root, h.root, hn]
  have hrep : si'.Rep si.header.rootPointer t := h.rep.congr fun q _ => hread q
  have hrep' : si'.Rep si.header.rootPointer t' := by
    rw [← hroot]
    exact h'.rep
  rw [hrep'.unique hrep] at hk'
  exact hk hk'

/-- Bulk insertion keeps a file well formed, also when it stops at a key that is refused. -/
theorem insertAll_wellFormed : ∀ (records : List (κ × Int)) {si : AVLIndex κ}
    {t : AvlTree Int (Record κ)} {F : List Int}, si.WellFormed t F →
    ∃ res si' t' F', Returns (fun fuel => AVLIndex.insertAll fuel si records) (res, si') ∧
      si'.WellFormed t' F' ∧ si'.pk = si.pk
  | [], si, t, F, h => ⟨_, si, t, F, .of_eq fun _ => rfl, h, rfl⟩
  | (data, rawPos) :: records, si, t, F, h => by
    cases inserted h data rawPos with
    | @ok si1 t1 F1 hret hwf hpk _ =>
      obtain ⟨res, si', t', F', hret', hwf', hpk'⟩ := insertAll_wellFormed records hwf
      exact ⟨res, si', t', F', hret.bind hret', hwf', hpk'.trans hpk⟩
    | refused hret hpk _ => exact ⟨_, si, t, F, hret.bind (.of_eq fun _ => rfl), h, rfl⟩

end

/-- The files of all objects are well formed. -/
def WellFormed (w : AVLObjects ι κ) (pk : ι → Bool) : Prop :=
  ∀ i, (w.objects i).pk = pk i ∧ ∃ t F, (w.objects i).WellFormed t F

variable {pk : ι → Bool} {c : AVLCall κ} {res : Except Exn (List Int)}

/-- A call that leaves its object well formed leaves them all so. -/
theorem WellFormed.put (h : w.WellFormed pk) {si : AVLIndex κ} {t : AvlTree Int (Record κ)}
    {F : List Int} {b : Bool} (hpk : si.pk = (w.objects i).pk) (hwf : si.WellFormed t F)
    (hs : s.toAVLIndex = si) : (w.put i s b).WellFormed pk := by
  intro j
  rcases eq_or_ne j i with rfl | hj
  · rw [put_objects_self, hs]
    exact ⟨hpk.trans (h j).1, t, F, hwf⟩
  · rw [put_objects_of_ne hj]
    exact h j

omit [DecidableEq ι] [KeyType κ] in
/-- The stream of a call that finds it closed. -/
theorem openFile_eq (ho : w.isOpen = false) :
    w.openFile memory i = AVLStream.mk (w.objects i) true memory := by
  rw [openFile, ho]
  rfl

/-! ## Runs -/

/-- What calls lead to from new files, one for each object: a call finds the stream closed, or it is
a failing call. A call never removes the key of a root with fewer than two children. -/
inductive Reached (pk : ι → Bool) : AVLObjects ι κ → Prop
  | start : Reached pk ⟨fun i => .initIndex (pk i), false⟩
  | call {w w' : AVLObjects ι κ} {memory : κ} {i : ι} {c : AVLCall κ}
      {res : Except Exn (List Int)} : Reached pk w → w.isOpen = false →
      (∀ k, c = .remove k → ¬ (w.objects i).AtThinRoot k) →
      Returns (w.call · memory i c) (res, w') → Reached pk w'
  | failing {w w' : AVLObjects ι κ} : Reached pk w → w.Failing w' → Reached pk w'

/-- A call of `add` that finds the stream closed. -/
theorem call_add {si' : AVLIndex κ} (memory : κ) (ho : w.isOpen = false)
    (hi : Returns (AVLIndex.insert · (w.objects i) (w.objects i).header.rootPointer
      { data := k, rawPos := v }) (.ok (), si')) :
    Returns (w.call · memory i (.add k v)) (.ok [v], w.put i (.mk si' true memory) false) := by
  filter_upwards [hi] with fuel hi
  rw [call, add, openFile_eq ho, AVLStream.insert_of hi]
  rfl

/-- An `add` that is refused throws, and leaves the stream open. -/
theorem call_add_refused {si' : AVLIndex κ} (memory : κ) (ho : w.isOpen = false)
    (hi : Returns (AVLIndex.insert · (w.objects i) (w.objects i).header.rootPointer
      { data := k, rawPos := v }) (.error e, si')) :
    Returns (w.call · memory i (.add k v))
      (.error (.runtimeError "Couldn't add"), w.put i (.mk si' true memory) true) := by
  filter_upwards [hi] with fuel hi
  rw [call, add, openFile_eq ho, AVLStream.insert_of hi]
  rfl

/-- What a call of `remove` that finds the stream closed does to the objects. -/
theorem call_remove {si' : AVLIndex κ} {pos : List Int} (memory : κ) (ho : w.isOpen = false)
    (hr : (w.objects i).remove fuel k = some (.ok pos, si')) :
    ∃ pos', w.call fuel memory i (.remove k) =
      some (.ok pos', w.put i (.mk si' true memory) false) := by
  obtain ⟨_ | ⟨b, n, s1⟩, he, heq⟩ := Option.map_eq_some_iff.1 hr
  · cases heq
  cases heq
  rw [call, remove, openFile_eq ho]
  obtain ⟨n', he'⟩ := AVLStream.erase_of (AVLStream.mk (w.objects i) true memory).fresh he
  exact ⟨[n'.rawPos], by rw [he']; rfl⟩

/-- A call keeps the files well formed. -/
theorem WellFormed.call (h : w.WellFormed pk) (ho : w.isOpen = false)
    (hthin : ∀ k, c = .remove k → ¬ (w.objects i).AtThinRoot k)
    (hret : Returns (w.call · memory i c) (res, w')) : w'.WellFormed pk := by
  obtain ⟨t, F, hwf⟩ := (h i).2
  cases c with
  | add data rawPos =>
    cases inserted hwf data rawPos with
    | ok hins hwf' hpk _ =>
      cases hret.unique (call_add memory ho hins)
      exact h.put hpk hwf' rfl
    | refused hins _ _ =>
      cases hret.unique (call_add_refused memory ho hins)
      exact h.put rfl hwf rfl
  | search item =>
    obtain ⟨fuel, hfuel⟩ := hret.exists
    obtain ⟨⟨_ | node, s⟩, hs, hfuel⟩ := Option.bind_eq_some_iff.1 hfuel
    · cases hfuel
      exact h.put rfl hwf (AVLStream.searchNode_toAVLIndex hs)
    · obtain ⟨records, -, heq⟩ := Option.map_eq_some_iff.1 hfuel
      cases heq
      exact h.put rfl hwf (AVLStream.searchNode_toAVLIndex hs)
  | remove item =>
    obtain ⟨pos, si', t', F', hrem, hwf', hpk, -⟩ := hwf.remove (hthin item rfl)
    obtain ⟨fuel, hfuel, hrem⟩ := (hret.and hrem).exists
    obtain ⟨pos', hcall⟩ := call_remove memory ho hrem
    cases hfuel.symm.trans hcall
    exact h.put hpk hwf' rfl
  | rangeSearch start last =>
    obtain ⟨fuel, hfuel⟩ := hret.exists
    obtain ⟨⟨node, records, s⟩, hs, heq⟩ := Option.map_eq_some_iff.1 hfuel
    cases heq
    exact h.put rfl hwf (AVLStream.rangeSearchNode_toAVLIndex hs)
  | bulkInsert records =>
    obtain ⟨res', si', t', F', hins, hwf', hpk⟩ := insertAll_wellFormed records hwf
    obtain ⟨fuel, hfuel, hins⟩ := (hret.and hins).exists
    change w.bulkInsert fuel memory i records = _ at hfuel
    rw [bulkInsert, openFile_eq ho, AVLStream.insertAll_of hins] at hfuel
    split_ifs at hfuel
    · cases hfuel
      exact h
    cases res' <;> cases hfuel <;> exact h.put hpk hwf' rfl

/-- The objects are well formed in every reached state. -/
theorem Reached.wellFormed (h : Reached pk w) : w.WellFormed pk := by
  induction h with
  | start => exact fun i => ⟨rfl, .nil, [], AVLIndex.WellFormed.initIndex (pk i)⟩
  | call _ ho hthin hret ih => exact ih.call ho hthin hret
  | failing _ hf ih =>
    rw [hf.eq]
    exact ih

/-! ## The trace of a failing call -/

/-- An insertion that finds the stream open writes no node. -/
theorem nodes_of_call_add {out : Outcome (AVLObjects ι κ) (List Int)} (ho : w.isOpen = true)
    (h : w.call fuel memory i (.add k v) = some out) :
    (out.2.objects i).nodes = (w.objects i).nodes := by
  have hgood : (w.openFile memory i).good = false := by rw [openFile, ho]; rfl
  obtain ⟨⟨_ | u, s⟩, hs, rfl⟩ := Option.map_eq_some_iff.1 h
  · exact (congrArg AVLIndex.nodes put_objects_self).trans (AVLStream.insert_failed hgood hs).nodes
  · exact (congrArg AVLIndex.nodes put_objects_self).trans (AVLStream.insert_failed hgood hs).nodes

/-- An insertion of another key than the one in memory, into an object that has a root, comes back
when it finds the stream open. -/
theorem call_add_open (ho : w.isOpen = true) (hm : memory ≠ k)
    (hroot : (w.objects i).header.rootPointer ≠ -1) :
    ∃ w', Returns (w.call · memory i (.add k v)) (.ok [v], w') := by
  have hgood : (w.openFile memory i).good = false := by rw [openFile, ho]; rfl
  have hm' : (w.openFile memory i).fresh.data ≠
      ({ data := k, rawPos := v } : AVLIndexNode κ).data := hm
  obtain ⟨s, hs⟩ := AVLStream.insert_unfilled hgood hroot hm' rfl rfl
  refine ⟨w.put i s false, .of_succ (.of_eq fun fuel => ?_)⟩
  show (AVLStream.insert (fuel + 1) (w.openFile memory i) (w.objects i).header.rootPointer _ _).map _
    = _
  rw [hs]
  rfl

/-- One call. -/
theorem observe_call (h : Returns (w.call · memory i c) (res, w')) :
    Returns (w.observe [(memory, i, c)]) ([res], w'.files) := by
  filter_upwards [h] with fuel hfuel
  rw [observe, run, hfuel]
  rfl

/-- The files are observed after the call. -/
theorem call_of_observe {out : List (Except Exn (List Int)) ×
      (ι → AVLIndexHeader × List (AVLIndexNode κ) × List (AVLIndexNode κ))}
    (h : w.observe [(memory, i, c)] fuel = some out) :
    ∃ res w', w.call fuel memory i c = some (res, w') ∧ out = ([res], w'.files) := by
  obtain ⟨⟨results, w1⟩, hrun, rfl⟩ := Option.map_eq_some_iff.1 h
  obtain ⟨⟨res, w2⟩, hcall, hrun⟩ := Option.bind_eq_some_iff.1 hrun
  cases hrun
  exact ⟨res, _, hcall, rfl⟩

/-- A `search` that throws has not found its key. -/
theorem not_mem_of_search {t : AvlTree Int (Record κ)} {F : List Int}
    (hwf : (w.objects i).WellFormed t F) (ho : w.isOpen = false)
    (h : Returns (w.call · memory i (.search k)) (.error e, w')) : k ∉ t.toList.map (·.data) := by
  intro hk
  obtain ⟨y, hy, rfl⟩ := List.mem_map.1 hk
  obtain ⟨n, hfound, -⟩ := (AVLIndex.searchNode_returns hwf.rep hwf.sorted).1 y hy rfl
  obtain ⟨fuel, hcall, hfound⟩ := (h.and hfound).exists
  change w.search fuel memory i y.data = _ at hcall
  rw [search, openFile_eq ho, AVLStream.searchNode_of hfound] at hcall
  obtain ⟨records, -, heq⟩ := Option.map_eq_some_iff.1 hcall
  cases heq

/-- After a `search` that throws, a row with its key is lost. -/
theorem not_noTrace_search (hw : w.WellFormed pk) (ho : w.isOpen = false)
    (h : Returns (w.call · memory i (.search k)) (.error e, w')) : ¬ w.NoTrace w' := by
  intro hno
  obtain ⟨t, F, hwf⟩ := (hw i).2
  have hk := not_mem_of_search hwf ho h
  cases inserted hwf k 0 with
  | refused _ _ hmem => exact hk hmem
  | @ok si' t' F' hins hwf' _ hmem =>
    have hsame := (hno.2 _ _).2 (observe_call (call_add memory ho hins))
    obtain ⟨fuel, hfuel⟩ := hsame.exists
    obtain ⟨res, w1, hcall, heq⟩ := call_of_observe hfuel
    have hw' := (Failing.search h).eq
    have hnodes := nodes_of_call_add (by rw [hw']) hcall
    have hfiles : (w1.objects i).nodes = si'.nodes := by
      have hf := congrFun (congrArg Prod.snd heq) i
      simp only [files, put_objects_self, Prod.mk.injEq] at hf
      exact hf.2.1.symm
    refine nodes_ne hwf hwf' hk hmem ?_
    rw [← hfiles, hnodes, hw']

/-- After an `add` that throws, its key is accepted. -/
theorem not_noTrace_add [Nontrivial κ] (hw : w.WellFormed pk) (ho : w.isOpen = false)
    (h : Returns (w.call · memory i (.add k v)) (.error e, w')) : ¬ w.NoTrace w' := by
  intro hno
  obtain ⟨t, F, hwf⟩ := (hw i).2
  cases inserted hwf k v with
  | ok hins _ _ _ =>
    have := h.unique (call_add memory ho hins)
    cases this
  | refused hins _ hmem =>
    obtain ⟨m, hm⟩ := exists_ne k
    have hw' := (Failing.add h).eq
    have hroot : (w'.objects i).header.rootPointer ≠ -1 := by
      rw [hw']
      refine mt hwf.rep.eq_neg_one_iff.1 ?_
      rintro rfl
      cases hmem
    have hopen : w'.isOpen = true := by rw [hw']
    obtain ⟨w1, hcall⟩ := call_add_open (v := v) hopen hm hroot
    have hsame := (hno.2 _ _).2 (observe_call (call_add_refused m ho hins))
    have := (observe_call hcall).unique hsame
    cases this

/-- A `search` or an `add` that throws changes no file, and leaves no trace when it finds the stream
open. In every state that is reached it leaves one when it finds the stream closed. -/
theorem noTrace_of_run [Nontrivial κ] :
    (∀ w w' : AVLObjects ι κ, w.Failing w' →
      w'.files = w.files ∧ (w.isOpen = true → w.NoTrace w')) ∧
    ∀ (pk : ι → Bool) (w w' : AVLObjects ι κ), Reached pk w → w.Failing w' →
      (w.NoTrace w' ↔ w.isOpen = true) := by
  refine ⟨fun w w' h => ⟨?_, h.noTrace⟩, fun pk w w' hw h => ⟨fun hno => ?_, h.noTrace⟩⟩
  · rw [h.eq]
    rfl
  · by_contra ho
    rw [Bool.not_eq_true] at ho
    cases h with
    | search h => exact not_noTrace_search hw.wellFormed ho h hno
    | add h => exact not_noTrace_add hw.wellFormed ho h hno

/-- Two new indexes. -/
def twoIndexes : AVLObjects Bool Int := ⟨fun _ => .initIndex false, false⟩

/-- A `search` for a key that is not there leaves the stream open. -/
theorem search_twoIndexes : Returns (twoIndexes.call · 0 true (.search 5))
    (.error (.runtimeError "Couldn't search"), { twoIndexes with isOpen := true }) := by
  have h : Returns (twoIndexes.call · 0 true (.search 5)) (.error (.runtimeError "Couldn't search"),
      twoIndexes.put true (twoIndexes.openFile 0 true) true) := .of_add 1 fun _ => rfl
  rw [put_self (show (twoIndexes.openFile 0 true).toAVLIndex = _ from rfl)] at h
  exact h

/-- The second of two lookups in empty indexes. -/
theorem noTrace_of_run_sample : ∃ w w' : AVLObjects Bool Int, Reached (fun _ => false) w ∧
    w.Failing w' ∧ (w.NoTrace w' ↔ w.isOpen = true) ∧ w.isOpen = true := by
  have r1 : Reached (fun _ => false) { twoIndexes with isOpen := true } :=
    .failing .start (.search search_twoIndexes)
  have h2 : Returns (call { twoIndexes with isOpen := true } · (0 : Int) false (.search 5))
      (.error _, _) := .of_add 5 fun _ => rfl
  exact ⟨_, _, r1, .search h2, noTrace_of_run.2 _ _ _ r1 (.search h2), rfl⟩

/-- A lookup in an empty index. -/
theorem not_noTrace : ∃ w w' : AVLObjects Bool Int, Reached (fun _ => false) w ∧ w.Failing w' ∧
    ¬ w.NoTrace w' :=
  ⟨_, _, .start, .search search_twoIndexes,
    not_noTrace_search Reached.start.wellFormed rfl search_twoIndexes⟩

end AVLObjects

end Rdbms
