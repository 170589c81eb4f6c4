import Mathlib.Data.List.Perm.Basic
import Rdbms.Lib.ShiftInsert
import Rdbms.Isam.Model

/-!
# Data pages

`insertRecord` compares the new key with the one behind the last record first, which is whatever the
memory holds there, so the place that the record gets is not always its own (`Shifted`). None gets
lost: the records that count are the old ones with the new one somewhere among them (`Inserted`), and
the same holds of the two pages of a split.
-/

namespace Rdbms

/-- The list with `a` put somewhere into it. -/
def Inserted {α : Type*} (a : α) (old new : List α) : Prop :=
  ∃ l1 l2, old = l1 ++ l2 ∧ new = l1 ++ a :: l2

namespace Inserted
variable {α : Type*} {a : α} {old new l : List α}

/-- Elements behind do not matter. -/
theorem append_right (h : Inserted a old new) (l : List α) : Inserted a (old ++ l) (new ++ l) := by
  obtain ⟨l1, l2, rfl, rfl⟩ := h
  exact ⟨l1, l2 ++ l, List.append_assoc .., List.append_assoc ..⟩

/-- Elements in front do not matter. -/
theorem append_left (h : Inserted a old new) (l : List α) : Inserted a (l ++ old) (l ++ new) := by
  obtain ⟨l1, l2, rfl, rfl⟩ := h
  exact ⟨l ++ l1, l2, (List.append_assoc ..).symm, (List.append_assoc ..).symm⟩

/-- An element put at the end. -/
theorem concat (a : α) (old : List α) : Inserted a old (old ++ [a]) :=
  ⟨old, [], (List.append_nil _).symm, rfl⟩

end Inserted

namespace DataPage
variable {κ : Type} [IntCast κ] [LinearOrder κ] {page : DataPage κ} {record : ISAMRecord κ}

omit [IntCast κ] [LinearOrder κ] in
/-- A page has three slots. -/
theorem exists_eq (page : DataPage κ) :
    ∃ a b c h, page = ⟨⟨[a, b, c], h⟩, page.next, page.count⟩ := by
  obtain ⟨⟨l, h⟩, _, _⟩ := page
  match l, h with
  | [a, b, c], h => exact ⟨a, b, c, h, rfl⟩

omit [IntCast κ] [LinearOrder κ] in
/-- A page with three records is full. -/
theorem isFull_iff : page.isFull = true ↔ page.count = 3 := decide_eq_true_iff

/-! ### The slots of a page -/

omit [LinearOrder κ] in
/-- A slot of a page. -/
theorem getElem?_records {i : Nat} (h : i < 3) :
    page.records.1[i]? = some (page.getRecord i) := by
  have hi : i < page.records.1.length := by rwa [page.records.2]
  rw [getRecord, List.getD_eq_getElem?_getD, List.getElem?_eq_getElem hi, Option.getD_some]

omit [LinearOrder κ] in
/-- The slots up to one are those in front of it and that one. -/
theorem take_records {i : Nat} (h : i < 3) :
    page.records.1.take (i + 1) = page.records.1.take i ++ [page.getRecord i] := by
  rw [List.take_add_one, getElem?_records h, Option.toList_some]

omit [IntCast κ] [LinearOrder κ] in
/-- One slot is written. -/
theorem records_setRecord (r : ISAMRecord κ) {i : Nat} (h : i < 3) : (page.setRecord r i).records.1 =
    page.records.1.take i ++ r :: page.records.1.drop (i + 1) :=
  List.set_eq_take_append_cons_drop.trans (if_pos (by rwa [page.records.2]))

/-! ### Insertion -/

/-- The loop from the slot `j` down. It puts the record among those in front of the slot, of which
the ones behind it move up, the last one over what the slot holds. -/
theorem shiftRecords_shifted (page : DataPage κ) (record : ISAMRecord κ) {j : Nat} (h : j < 3) :
    ∃ l1 l2, page.records.1.take j = l1 ++ l2 ∧
      Shifted record.key (page.getKey j) (l1.map (·.key)) (l2.map (·.key)) ∧
      (page.shiftRecords record j).records.1 = l1 ++ record :: l2 ++ page.records.1.drop (j + 1) ∧
      (page.shiftRecords record j).count = page.count + 1 ∧
      (page.shiftRecords record j).next = page.next := by
  induction j generalizing page with
  | zero => exact ⟨[], [], rfl, .empty, records_setRecord record h, rfl, rfl⟩
  | succ j ih =>
    rw [shiftRecords]
    by_cases hlt : record.key < page.getKey (j + 1)
    · -- the record in front of the slot moves up to it
      let page1 : DataPage κ := { page.setRecord (page.getRecord j) (j + 1) with count := page.count }
      have hrecords : page1.records.1 =
          page.records.1.take (j + 1) ++ page.getRecord j :: page.records.1.drop (j + 2) :=
        records_setRecord _ h
      have hlen : (page.records.1.take (j + 1)).length = j + 1 := by
        rw [List.length_take, page.records.2]
        omega
      have htake : page1.records.1.take j = page.records.1.take j := List.take_set_of_le (Nat.le_succ j)
      have hdrop : page1.records.1.drop (j + 1) = page.getRecord j :: page.records.1.drop (j + 2) := by
        rw [hrecords, List.drop_left' hlen]
      have hkey : page1.getKey j = page.getKey j := by
        show ((page.records.1.set (j + 1) _).getD j default).key = _
        rw [List.getD_eq_getElem?_getD, List.getElem?_set_ne (Nat.succ_ne_self j),
          ← List.getD_eq_getElem?_getD]
        rfl
      obtain ⟨l1, l2, hl, hshifted, hlive, hcount, hnext⟩ := ih page1 (by omega)
      rw [if_pos hlt]
      refine ⟨l1, l2 ++ [page.getRecord j], ?_, ?_, hlive.trans ?_, hcount, hnext⟩
      · rw [take_records (by omega), ← htake, hl, List.append_assoc]
      · rw [List.map_append]
        exact (hkey ▸ hshifted).concat hlt
      · simp [hdrop]
    · rw [if_neg hlt]
      refine ⟨page.records.1.take (j + 1), [], (List.append_nil _).symm, .last (not_lt.1 hlt), ?_,
        rfl, rfl⟩
      rw [records_setRecord record h]
      simp

/-- `insertRecord` into a page that has room: where the record goes is up to what the slot behind
the last record holds. -/
theorem insertRecord_shifted (record : ISAMRecord κ) (h : page.count < 3) :
    ∃ page' l1 l2, page.insertRecord record = .ok page' ∧ page.live = l1 ++ l2 ∧
      page'.live = l1 ++ record :: l2 ∧
      Shifted record.key (page.getKey page.count) (l1.map (·.key)) (l2.map (·.key)) ∧
      page'.count = page.count + 1 ∧ page'.next = page.next := by
  obtain ⟨l1, l2, hlive, hshifted, hrecords, hcount, hnext⟩ := page.shiftRecords_shifted record h
  refine ⟨page.shiftRecords record page.count, l1, l2, ?_, hlive, ?_, hshifted, hcount, hnext⟩
  · have hfull : ¬ page.isFull = true := by
      rw [isFull_iff]
      omega
    rw [insertRecord, if_neg hfull]
    by_cases h0 : page.count = 0
    · rw [if_pos h0, h0]
      rfl
    · rw [if_neg h0]
  · have hlen := congrArg List.length hlive
    rw [List.length_take, page.records.2, List.length_append] at hlen
    rw [live, hrecords, hcount, List.take_left']
    rw [List.length_append, List.length_cons]
    omega

/-- `insertRecord` into a page that has room loses no record. -/
theorem insertRecord_live (record : ISAMRecord κ) (h : page.count < 3) :
    ∃ page', page.insertRecord record = .ok page' ∧ Inserted record page.live page'.live ∧
      page'.count = page.count + 1 ∧ page'.next = page.next := by
  obtain ⟨page', l1, l2, hins, hold, hnew, -, hcount, hnext⟩ := insertRecord_shifted record h
  exact ⟨page', hins, ⟨l1, l2, hold, hnew⟩, hcount, hnext⟩

/-! ### The split of a full page -/

/-- The pages that the records of a full page are on before the new record goes to one of them, the
second one in the memory `memory`. -/
structure Halves (page : DataPage κ) (memory : Slots κ) (page1 page2 : DataPage κ) : Prop where
  live1 : page1.live = [page.getRecord 0]
  live2 : page2.live = [page.getRecord 1, page.getRecord 2]
  count1 : page1.count = 1
  count2 : page2.count = 2
  behind1 : page1.getKey 1 = ((-1 : Int) : κ)
  behind2 : page2.getKey 2 = (new memory).getKey 2
  next2 : page2.next = page.next

omit [LinearOrder κ] in
/-- The records of a full page. -/
theorem live_of_full (h : page.count = 3) :
    page.live = [page.getRecord 0, page.getRecord 1, page.getRecord 2] := by
  obtain ⟨a, b, c, hs, hpage⟩ := page.exists_eq
  rw [h] at hpage
  generalize page.next = n at *
  subst hpage
  rfl

omit [LinearOrder κ] in
/-- A full page keeps its first record, the other two go to the new page. -/
theorem moveUpper_halves (memory : Slots κ) (h : page.count = 3) :
    ∃ page1 page2, page.moveUpper ((new memory).setNext page.next) = (page1, page2) ∧
      page.Halves memory page1 page2 := by
  obtain ⟨a, b, c, hs, hpage⟩ := page.exists_eq
  obtain ⟨x, y, z, hm, hmem⟩ := (new memory).exists_eq
  rw [h] at hpage
  generalize page.next = n at *
  subst hpage
  refine ⟨_, _, rfl, rfl, ?_, rfl, rfl, rfl, ?_, rfl⟩
  · rw [hmem]
    rfl
  · rw [hmem]
    rfl

/-- `splitAndInsert` puts the record on one of the halves. -/
theorem splitAndInsert_halves (record : ISAMRecord κ) (memory : Slots κ) (h : page.count = 3) :
    ∃ page1 page2, page.Halves memory page1 page2 ∧ page.splitAndInsert record memory =
      if page.splitIndex record 2 = 0 then (page1.insertRecord record).map (·, page2)
      else (page2.insertRecord record).map (page1, ·) := by
  obtain ⟨page1, page2, hmove, hhalves⟩ := moveUpper_halves memory h
  refine ⟨page1, page2, hhalves, ?_⟩
  rw [splitAndInsert, h, hmove]
  exact if_congr Nat.lt_one_iff rfl rfl

/-- `splitAndInsert` of a full page. -/
theorem splitAndInsert_live (record : ISAMRecord κ) (memory : Slots κ) (h : page.count = 3) :
    ∃ page1 page2, page.splitAndInsert record memory = .ok (page1, page2) ∧
      Inserted record page.live (page1.live ++ page2.live) ∧
      (1 ≤ page1.count ∧ page1.count ≤ 3) ∧ (1 ≤ page2.count ∧ page2.count ≤ 3) ∧
      page2.next = page.next := by
  obtain ⟨page1, page2, hhalves, hsplit⟩ := splitAndInsert_halves record memory h
  have hc1 := hhalves.count1
  have hc2 := hhalves.count2
  have hlive : page1.live ++ page2.live = page.live := by
    rw [hhalves.live1, hhalves.live2, live_of_full h]
    rfl
  rw [hsplit, ← hlive]
  split_ifs
  · obtain ⟨page1', hins, hins', hc, -⟩ :=
      insertRecord_live record (show page1.count < 3 by omega)
    refine ⟨page1', page2, by rw [hins]; rfl, hins'.append_right _, ?_, ?_, hhalves.next2⟩
    · omega
    · omega
  · obtain ⟨page2', hins, hins', hc, hn⟩ :=
      insertRecord_live record (show page2.count < 3 by omega)
    refine ⟨page1, page2', by rw [hins]; rfl, hins'.append_left _, ?_, ?_, hn.trans hhalves.next2⟩
    · omega
    · omega

omit [LinearOrder κ] in
/-- A record that is written over one of the records of a page. -/
theorem setRecord_live (record : ISAMRecord κ) {l1 l2 : List (ISAMRecord κ)} {r : ISAMRecord κ}
    (h : page.live = l1 ++ r :: l2) : page.getRecord l1.length = r ∧
      ({ page.setRecord record l1.length with count := page.count } : DataPage κ).live =
        l1 ++ record :: l2 := by
  constructor
  · have hr : page.live[l1.length]? = some r := by simp [h]
    rw [live, List.getElem?_take] at hr
    split_ifs at hr
    rw [getRecord, List.getD_eq_getElem?_getD, hr, Option.getD_some]
  · show (page.records.1.set l1.length record).take page.count = l1 ++ record :: l2
    rw [List.take_set, ← live, h]
    simp

end DataPage

end Rdbms
