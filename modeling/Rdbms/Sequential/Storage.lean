import Rdbms.Sequential.Machine
import Rdbms.Sequential.Splice

/-!
# The length of the overflow file

`add` compares the lengths of the files when it has inserted a record, and the calls that insert many
or remove one copy all records into a new index file. So after every run of public calls the overflow
file is empty or no longer than the logarithm of the length of the index file (`short_of_run`), in
whatever state the links are, as long as no call inserts without looking at the lengths and no
removal reads the index file between two records (`ReadsAcross`).
-/

namespace Rdbms

namespace SequentialIndex
variable {κ : Type} [KeyType κ] {si si' : SequentialIndex κ} {k : κ} {v : Int} {fuel : Nat}
  {sort : List (κ × Int) → List (κ × Int)} {pk : Bool} {records : List (κ × Int)}
  {c : SequentialCall κ} {reply : SequentialReply}

/-- The overflow file is empty, or no longer than the logarithm of the length of the index file. -/
def Short (si : SequentialIndex κ) : Prop :=
  si.auxFile = [] ∨ 2 ^ si.auxFile.length ≤ si.indexFile.length

omit [KeyType κ] in
/-- Without index records there are no overflow records. -/
theorem Short.auxFile_eq_nil (h : si.Short) (hindex : si.indexFile = []) : si.auxFile = [] := by
  rcases h with haux | hle
  · exact haux
  · rw [hindex, List.length_nil, Nat.le_zero] at hle
    exact absurd hle (Nat.two_pow_pos _).ne'

/-! ## The calls -/

/-- `rebuild` empties the overflow file. -/
theorem auxFile_rebuild (h : si.rebuild fuel = some si') : si'.auxFile = [] := by
  rw [rebuild] at h
  by_cases hpos : si.header.nextPos = endOfFile
  · rw [if_neg (not_not_intro hpos)] at h
    cases h
    rfl
  · rw [if_pos hpos] at h
    obtain ⟨s, -, rfl⟩ := Option.map_eq_some_iff.1 h
    rfl

/-- An insertion has looked at the lengths. -/
theorem short_of_add {positions : List Int} (h : si.add fuel k v = some (.ok positions, si')) :
    si'.Short := by
  obtain ⟨bsr, -, h⟩ := Option.bind_eq_some_iff.1 h
  obtain ⟨⟨res, si1⟩, -, h⟩ := Option.bind_eq_some_iff.1 h
  cases res with
  | error ex => cases h
  | ok u =>
    change addEnd fuel true _ (.ok u, si1) = _ at h
    -- the reported positions play no part
    generalize (if bsr.location = .emptyFile then [v, v] else [v]) = reported at h
    rw [addEnd] at h
    by_cases hlong : true = true ∧ (!si1.validNumberRecords) = true
    · rw [if_pos hlong] at h
      obtain ⟨si2, hrebuild, heq⟩ := Option.map_eq_some_iff.1 h
      cases heq
      exact .inl (auxFile_rebuild hrebuild)
    · rw [if_neg hlong] at h
      cases h
      have hvalid : si'.validNumberRecords = true := by simpa using hlong
      exact .inr (of_decide_eq_true hvalid)

/-- The walk through an overflow chain that finds nothing. -/
theorem eraseAux_nil {file : Stream}
    {start : SequentialIndexRecord κ × SequentialIndexRecord κ × Stream}
    (h : loop (si.eraseAuxBody file k) fuel start = some ([], si')) : si' = si := by
  refine loop_of_inv (I := fun _ => True)
    (Q := fun out : List Int × SequentialIndex κ => out.1 = [] → out.2 = si)
    (fun _ _ _ _ => trivial) ?_ trivial h rfl
  rintro ⟨sirPrev, sirCur, auxFile⟩ out - hbody hnil
  rw [eraseAuxBody] at hbody
  by_cases hdata : sirCur.data = k
  · -- a record that is found is reported
    rw [if_pos hdata] at hbody
    split_ifs at hbody
    · cases hbody
      cases hnil
    · cases hbody
      cases hnil
  · rw [if_neg hdata] at hbody
    split_ifs at hbody
    · cases hbody
      rfl
    · cases hbody

/-- `erase` looks for the key in the overflow chain of the header: it reads the index file at an
offset of the overflow file, that is between two records. -/
def ReadsAcross (si : SequentialIndex κ) (fuel : Nat) (data : κ) : Prop :=
  ∃ bsr, si.binarySearch fuel data = some bsr ∧ bsr.header = true ∧ ¬ NotInFiles bsr

/-- A key that is not found leaves the files as they are. -/
theorem eq_of_erase (hacross : ¬ si.ReadsAcross fuel k) (h : si.erase fuel k = some ([], si')) :
    si' = si := by
  obtain ⟨bsr, hbsr, h⟩ := Option.bind_eq_some_iff.1 h
  unfold eraseAt at h
  split at h
  · cases h
    rfl
  · -- a record of the index file is always reported
    simp only [eraseCur] at h
    split_ifs at h
    · cases h
    · obtain ⟨_, -, heq⟩ := Option.map_eq_some_iff.1 h
      cases heq
    · cases h
    · obtain ⟨_, -, heq⟩ := Option.map_eq_some_iff.1 h
      cases heq
  · split_ifs at h with hnot hheader
    · cases h
      rfl
    · exact absurd ⟨bsr, hbsr, hheader, hnot⟩ hacross
    · exact eraseAux_nil h
    · exact eraseAux_nil h

/-- A removal leaves the files as they are or has them built again. -/
theorem Short.remove {positions : List Int} (h : si.Short) (hacross : ¬ si.ReadsAcross fuel k)
    (hremove : si.remove fuel k = some (positions, si')) : si'.Short := by
  obtain ⟨⟨found, si1⟩, herase, hremove⟩ := Option.bind_eq_some_iff.1 hremove
  cases found with
  | nil =>
    cases hremove
    exact eq_of_erase hacross herase ▸ h
  | cons pos found =>
    obtain ⟨si2, hrebuild, heq⟩ := Option.map_eq_some_iff.1 hremove
    cases heq
    exact .inl (auxFile_rebuild hrebuild)

omit [KeyType κ] in
/-- A write into the index file leaves the overflow file. -/
theorem auxFile_moveWriteRecord_index {pos : Int} {r : SequentialIndexRecord κ} :
    (si.moveWriteRecord .index pos r).1.auxFile = si.auxFile := by
  unfold moveWriteRecord
  split_ifs
  · rfl
  · rfl

/-- The loop of `bulk_insert` writes no overflow record. -/
theorem auxFile_foldl_bulkNext (records : List (κ × Int)) (s : BulkState κ) :
    (records.foldl bulkNext s).si.auxFile = s.si.auxFile := by
  induction records generalizing s with
  | nil => rfl
  | cons record records ih =>
    rw [List.foldl_cons, ih, bulkNext]
    simp only
    split_ifs
    · exact auxFile_moveWriteRecord_index
    · exact auxFile_moveWriteRecord_index.trans auxFile_moveWriteRecord_index

/-- Nor does the load as a whole. -/
theorem auxFile_bulkLoad (records : List (κ × Int)) :
    (si.bulkLoad records).auxFile = si.auxFile := by
  cases records with
  | nil => rfl
  | cons record records =>
    exact (auxFile_foldl_bulkNext records _).trans auxFile_moveWriteRecord_index

/-- A batch that is loaded finds no overflow records. -/
theorem Short.bulkInsert (h : si.Short) (sort : List (κ × Int) → List (κ × Int))
    (records : List (κ × Int)) : (si.bulkInsert sort records).2.Short := by
  rw [SequentialIndex.bulkInsert]
  split_ifs with hnil hindex
  · exact h
  · refine .inl ((auxFile_bulkLoad _).trans ?_)
    exact h.auxFile_eq_nil hindex
  · exact h

/-! ## Runs -/

/-- A call that has inserted has looked at the lengths, or has built the files again. -/
def Checks : SequentialCall κ → SequentialReply → Prop
  | .addNotRebuild _ _, _ => False
  | .loadRecords _, .error _ => False
  | _, _ => True

/-- The call does not look for a key to remove in the overflow chain of the header. -/
def ReadsRecords (si : SequentialIndex κ) (fuel : Nat) : SequentialCall κ → Prop
  | .remove data => ¬ si.ReadsAcross fuel data
  | _ => True

/-- Any such calls on a new index that come back, with any replies. -/
inductive PublicRun (sort : List (κ × Int) → List (κ × Int)) (pk : Bool) : SequentialIndex κ → Prop
  | start : PublicRun sort pk (createFile pk)
  | call {si si' : SequentialIndex κ} {fuel : Nat} {c : SequentialCall κ} {reply : SequentialReply} :
      PublicRun sort pk si → si.ReadsRecords fuel c → Checks c reply →
      si.call sort fuel c = some (reply, si') → PublicRun sort pk si'

/-- A call that has looked at the lengths keeps the overflow file short. -/
theorem Short.call (h : si.Short) (hrecords : si.ReadsRecords fuel c) (hchecks : Checks c reply)
    (hcall : si.call sort fuel c = some (reply, si')) : si'.Short := by
  cases c with
  | add data rawPos =>
    obtain ⟨⟨res, si1⟩, hadd, heq⟩ := Option.map_eq_some_iff.1 hcall
    cases heq
    cases res with
    | error ex => exact (add_error hadd) ▸ h
    | ok positions => exact short_of_add hadd
  | addNotRebuild data rawPos => exact hchecks.elim
  | loadRecords records =>
    obtain ⟨⟨res, si1⟩, hload, heq⟩ := Option.map_eq_some_iff.1 hcall
    cases heq
    cases res with
    | error ex => exact hchecks.elim
    | ok positions =>
      obtain ⟨⟨res', si2⟩, -, hload⟩ := Option.bind_eq_some_iff.1 hload
      cases res' with
      | error ex => cases hload
      | ok u =>
        obtain ⟨si3, hrebuild, heq⟩ := Option.map_eq_some_iff.1 hload
        cases heq
        exact .inl (auxFile_rebuild hrebuild)
  | bulkInsert records =>
    have heq : (si.bulkInsert sort records).2 = si' := congrArg Prod.snd (Option.some.inj hcall)
    exact heq ▸ h.bulkInsert sort records
  | remove data =>
    obtain ⟨⟨positions, si1⟩, hremove, heq⟩ := Option.map_eq_some_iff.1 hcall
    cases heq
    exact h.remove hrecords hremove
  | rebuild =>
    obtain ⟨si1, hrebuild, heq⟩ := Option.map_eq_some_iff.1 hcall
    cases heq
    exact .inl (auxFile_rebuild hrebuild)
  | search data =>
    obtain ⟨positions, -, heq⟩ := Option.map_eq_some_iff.1 hcall
    cases heq
    exact h
  | rangeSearch first last =>
    obtain ⟨positions, -, heq⟩ := Option.map_eq_some_iff.1 hcall
    cases heq
    exact h

/-- After every run of public calls that look at the lengths, the overflow file is empty or its
length is at most the logarithm of the length of the index file. -/
theorem short_of_run (h : PublicRun sort pk si) : si.Short := by
  induction h with
  | start => exact .inl rfl
  | call _ hrecords hchecks hcall ih => exact ih.call hrecords hchecks hcall

/-- The second insertion copies both records into a new index file. -/
theorem short_of_run_sample : ∃ si : SequentialIndex Int,
    PublicRun (·.mergeSort fun a b => a.1 ≤ b.1) true si ∧ si.indexFile.length = 2 ∧ si.Short := by
  have r1 : PublicRun (·.mergeSort fun a b => a.1 ≤ b.1) true oneKey :=
    .call (c := .add 5 1) .start trivial trivial
      (show (createFile true).call (·.mergeSort fun a b => a.1 ≤ b.1) 5 (.add 5 1) =
        some (.ok ([1, 1], []), oneKey) from rfl)
  obtain ⟨si, hadd, hlength⟩ : ∃ si : SequentialIndex Int,
      oneKey.call (·.mergeSort fun a b => a.1 ≤ b.1) 5 (.add 7 2) = some (.ok ([2], []), si) ∧
        si.indexFile.length = 2 := ⟨_, rfl, rfl⟩
  have r2 := r1.call (c := .add 7 2) trivial trivial hadd
  exact ⟨si, r2, hlength, short_of_run r2⟩

end SequentialIndex

end Rdbms
