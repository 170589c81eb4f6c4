import Rdbms.Avl.Model
import Rdbms.Sequential.Model

/-!
# Duplicate chains in a shared file

`Index::insertDuplicate` puts a record in front of the chain of a main record: the record goes to the
end of the duplicates file, which has the chains of all main records, and the main record is written
back with its position. Whatever the order of the calls, the chain of each main record has the
records that were inserted for it, the last one first, and no others (`chains_separate`).
-/

namespace Rdbms

/-- A record type with the position of the record in it. -/
class PlacedRecord (ρ : Type) (κ : outParam Type) extends IndexRecord ρ κ where
  currentPos : ρ → Int
  currentPos_setDupPos : ∀ r p, currentPos (setDupPos r p) = currentPos r

section
variable {ρ κ : Type} [PlacedRecord ρ κ] {L D : Layout}
open IndexRecord PlacedRecord

/-- `Index::moveWriteRecord`: over a record of the file, or at its end. -/
def moveWriteRecord (L : Layout) (file : List ρ) (pos : Int) (record : ρ) : Option (List ρ) :=
  match L.slot? pos with
  | none => none
  | some i => if i ≤ file.length then some (L.write file pos record) else none

/-- `Index::insertDuplicate`, on a file and the duplicates file. -/
def insertDuplicate (L D : Layout) (file duplicatesFile : List ρ) (sir sirDup : ρ) :
    Option (List ρ × List ρ) :=
  let (duplicatesFile, duplicatePosition) :=
    insertDuplicateFile D duplicatesFile (setDupPos sirDup (toRecord sir).dupPos)
  let sir := setDupPos sir duplicatePosition
  (moveWriteRecord L file (currentPos sir) sir).map (·, duplicatesFile)

/-- A call for the main record at a position, as it was last written. -/
def insertAt (L D : Layout) (files : List ρ × List ρ) (call : Int × ρ) :
    Option (List ρ × List ρ) := do
  let sir ← L.read files.1 call.1
  insertDuplicate L D files.1 files.2 sir call.2

/-- The positions that the calls insert for a main record, the last one first. -/
def insertedFor (calls : List (Int × ρ)) (p : Int) : List Int :=
  ((calls.filter (·.1 = p)).map fun call => (toRecord call.2).rawPos).reverse

/-- After these calls: the main records are at their positions, and each has the chain of what was
inserted for it. -/
def Chains (L D : Layout) (file : List ρ) (mains : List Int) (calls : List (Int × ρ))
    (files : List ρ × List ρ) : Prop :=
  ∀ p ∈ mains, ∃ main r, L.read file p = some main ∧ L.read files.1 p = some r ∧
    currentPos r = p ∧ HasPositions D files.2 r (toRecord main).rawPos (insertedFor calls p)

variable {file : List ρ} {mains : List Int} {calls done : List (Int × ρ)} {files : List ρ × List ρ}
  {p q : Int} {r dup : ρ}

/-- The last call adds to its own chain only. -/
theorem insertedFor_concat : insertedFor (calls ++ [(q, dup)]) p =
    if q = p then (toRecord dup).rawPos :: insertedFor calls p else insertedFor calls p := by
  rw [insertedFor, List.filter_append, List.map_append, List.reverse_append]
  split_ifs with h
  · simp [h, insertedFor]
  · simp [h, insertedFor]

/-- A record is written over one that is read. -/
theorem moveWriteRecord_of_read (h : L.read file p = some r) (record : ρ) :
    moveWriteRecord L file p record = some (L.write file p record) := by
  obtain ⟨i, hi, rfl, -⟩ := Layout.read_eq_some h
  rw [moveWriteRecord, Layout.slot?_pos]
  exact if_pos hi.le

/-- One call. -/
theorem Chains.insertAt (h : Chains L D file mains done files) (hq : q ∈ mains) (dup : ρ) :
    ∃ files', insertAt L D files (q, dup) = some files' ∧
      Chains L D file mains (done ++ [(q, dup)]) files' := by
  obtain ⟨main, r, hmain, hr, hpos, hchain⟩ := h q hq
  let dup' := setDupPos dup (toRecord r).dupPos
  let r' := setDupPos r (D.endPos files.2)
  have hcall : Rdbms.insertAt L D files (q, dup) =
      some (L.write files.1 q r', files.2 ++ [dup']) := by
    rw [Rdbms.insertAt, hr]
    simp only [Option.bind_eq_bind, Option.bind_some, insertDuplicate, insertDuplicateFile,
      currentPos_setDupPos, hpos, moveWriteRecord_of_read hr, Option.map_some]
    rfl
  refine ⟨_, hcall, fun p hp => ?_⟩
  rw [insertedFor_concat]
  split_ifs with hqp
  · subst hqp
    refine ⟨main, r', hmain, Layout.read_write_self hr, ?_, ?_⟩
    · rw [currentPos_setDupPos, hpos]
    · have hgrown := hchain.insertDuplicate dup' (dupPos_setDupPos _ _)
      rwa [rawPos_setDupPos] at hgrown
  · obtain ⟨main, r, hmain, hrp, hpos, hchain⟩ := h p hp
    exact ⟨main, r, hmain, (Layout.read_write_ne hr (Ne.symm hqp)).trans hrp, hpos,
      hchain.append [dup']⟩

/-- Any number of calls, in any order. -/
theorem Chains.run (h : Chains L D file mains done files) (hcalls : ∀ call ∈ calls, call.1 ∈ mains) :
    ∃ files', calls.foldlM (Rdbms.insertAt L D) files = some files' ∧
      Chains L D file mains (done ++ calls) files' := by
  induction calls generalizing done files with
  | nil => exact ⟨files, rfl, by rwa [List.append_nil]⟩
  | cons call calls ih =>
    obtain ⟨q, dup⟩ := call
    obtain ⟨files1, hcall, h1⟩ := h.insertAt (hcalls _ (.head _)) dup
    obtain ⟨files', hrun, h'⟩ := ih h1 fun call hcall => hcalls call (.tail _ hcall)
    rw [List.append_assoc, List.singleton_append] at h'
    exact ⟨files', by rw [List.foldlM_cons, hcall]; exact hrun, h'⟩

/-- Any number of main records at their positions in a file, without duplicates, and any calls for
them from an empty duplicates file on: the calls come back, and so does the query of each main record
as it was last written, with its own position and those that were inserted for it, the last one
first. -/
theorem chains_separate (hmains : ∀ p ∈ mains, ∃ main, L.read file p = some main ∧
      currentPos main = p ∧ (toRecord main).dupPos = -1)
    (hcalls : ∀ call ∈ calls, call.1 ∈ mains) :
    ∃ files, calls.foldlM (Rdbms.insertAt L D) (file, []) = some files ∧
      ∀ p ∈ mains, ∃ main r, L.read file p = some main ∧ L.read files.1 p = some r ∧
        ∀ records, Returns (getAllRawCurrentRecords D files.2 · r records)
          (records ++ (toRecord main).rawPos :: insertedFor calls p) := by
  have hstart : Chains L D file mains [] (file, []) := by
    intro p hp
    obtain ⟨main, hmain, hpos, hdup⟩ := hmains p hp
    exact ⟨main, main, hmain, hmain, hpos, rfl, [], Path.nil_iff.2 hdup, rfl⟩
  obtain ⟨files, hrun, hchains⟩ := hstart.run hcalls
  refine ⟨files, hrun, fun p hp => ?_⟩
  obtain ⟨main, r, hmain, hr, -, hpositions⟩ := hchains p hp
  exact ⟨main, r, hmain, hr, getAllRaw_returns hpositions⟩

end

/-! ## The indexes -/

section
variable {κ : Type}
open IndexRecord PlacedRecord

instance : PlacedRecord (AVLIndexNode κ) κ where
  currentPos := (·.currentPos)
  currentPos_setDupPos _ _ := rfl

instance : PlacedRecord (SequentialIndexRecord κ) κ where
  currentPos := (·.currentPos)
  currentPos_setDupPos _ _ := rfl

/-- The node file of an AVL index. -/
theorem AVLIndex.insertDuplicate_files [KeyType κ] (si : AVLIndex κ)
    (cNode iNode : AVLIndexNode κ) :
    si.insertDuplicate cNode iNode =
      (Rdbms.insertDuplicate avlLayout avlDuplicatesLayout si.nodes si.duplicatesFile cNode
        iNode).map fun files => { si with nodes := files.1, duplicatesFile := files.2 } := by
  have hpos : ∀ p, currentPos (setDupPos cNode p) = cNode.currentPos := fun _ => rfl
  simp only [AVLIndex.insertDuplicate, Rdbms.insertDuplicate, AVLIndex.write, moveWriteRecord,
    insertDuplicateFile, hpos]
  cases avlLayout.slot? cNode.currentPos with
  | none => rfl
  | some i =>
    simp only
    split_ifs
    · rfl
    · rfl

/-- The index file or the overflow file of a sequential index, with the record at its position. -/
theorem SequentialIndex.insertDuplicate_files [KeyType κ] (si : SequentialIndex κ)
    {sir r : SequentialIndexRecord κ} (sirDup : SequentialIndexRecord κ) :
    (indexLayout.read si.indexFile sir.currentPos = some r →
      (Rdbms.insertDuplicate indexLayout duplicatesLayout si.indexFile si.duplicatesFile sir
        sirDup).map (fun files => { si with indexFile := files.1, duplicatesFile := files.2 }) =
          some (si.insertDuplicate .index sir sirDup)) ∧
    (auxLayout.read si.auxFile sir.currentPos = some r →
      (Rdbms.insertDuplicate auxLayout duplicatesLayout si.auxFile si.duplicatesFile sir
        sirDup).map (fun files => { si with auxFile := files.1, duplicatesFile := files.2 }) =
          some (si.insertDuplicate .aux sir sirDup)) := by
  have hpos : ∀ p, currentPos (setDupPos sir p) = sir.currentPos := fun _ => rfl
  constructor
  · intro h
    have hseek : true = true ∧ 0 ≤ sir.currentPos := ⟨rfl, Layout.nonneg_of_read h⟩
    have hwrite : si.insertDuplicate .index sir sirDup = { si with
        indexFile := indexLayout.write si.indexFile sir.currentPos
          (setDupPos sir (duplicatesLayout.endPos si.duplicatesFile))
        duplicatesFile := si.duplicatesFile ++ [setDupPos sirDup sir.dupPos] } :=
      congrArg Prod.fst (if_pos hseek)
    simp only [Rdbms.insertDuplicate, insertDuplicateFile, hpos, moveWriteRecord_of_read h, hwrite]
    rfl
  · intro h
    have hseek : true = true ∧ 0 ≤ sir.currentPos := ⟨rfl, Layout.nonneg_of_read h⟩
    have hwrite : si.insertDuplicate .aux sir sirDup = { si with
        auxFile := auxLayout.write si.auxFile sir.currentPos
          (setDupPos sir (duplicatesLayout.endPos si.duplicatesFile))
        duplicatesFile := si.duplicatesFile ++ [setDupPos sirDup sir.dupPos] } :=
      congrArg Prod.fst (if_pos hseek)
    simp only [Rdbms.insertDuplicate, insertDuplicateFile, hpos, moveWriteRecord_of_read h, hwrite]
    rfl

/-- Two main records, and three duplicates in turn. -/
theorem chains_separate_sample : ∃ files : List (AVLIndexNode Int) × List (AVLIndexNode Int),
    ∃ r, avlLayout.read files.1 32 = some r ∧
      Returns (getAllRawCurrentRecords avlDuplicatesLayout files.2 · r []) [0, 192, 128] := by
  let file : List (AVLIndexNode Int) :=
    [⟨⟨5, 0, -1⟩, 32, -1, 152, -1, 1⟩, ⟨⟨7, 64, -1⟩, 152, -1, -1, -1, 0⟩]
  let calls : List (Int × AVLIndexNode Int) :=
    [(32, ⟨⟨5, 128, -1⟩, 0, -1, -1, -1, 0⟩), (152, ⟨⟨7, 160, -1⟩, 0, -1, -1, -1, 0⟩),
      (32, ⟨⟨5, 192, -1⟩, 0, -1, -1, -1, 0⟩)]
  have hmains : ∀ p ∈ [(32 : Int), 152], ∃ main, avlLayout.read file p = some main ∧
      PlacedRecord.currentPos main = p ∧ (IndexRecord.toRecord main).dupPos = -1 := by
    intro p hp
    rcases List.mem_pair.1 hp with rfl | rfl
    · exact ⟨_, rfl, rfl, rfl⟩
    · exact ⟨_, rfl, rfl, rfl⟩
  have hcalls : ∀ call ∈ calls, call.1 ∈ [(32 : Int), 152] := by decide
  obtain ⟨files, -, hchains⟩ := chains_separate (D := avlDuplicatesLayout) hmains hcalls
  obtain ⟨main, r, hmain, hr, hret⟩ := hchains 32 (.head _)
  cases hmain
  exact ⟨files, r, hr, hret []⟩

end

end Rdbms
