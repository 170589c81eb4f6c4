import Rdbms.Isam.Page

/-!
# The order of the records of a page

`_insert` and `_remove` choose a page by the key of its last record, as if the records of a page were
in the order of their keys. `insertRecord` keeps them so when the key `GoesInOrder`
(`insertRecord_inOrder_iff`): the loop looks one slot too far, so a key below what stands behind the
last record must belong to the front of the page or be there, and another one must belong to the
back. `splitAndInsert` inserts into a half with the same loop. What stands behind the records of
the first half has been cleared to the key -1, and the new page is in memory that has not been set.
-/

namespace Rdbms

namespace DataPage
variable {κ : Type} [LinearOrder κ] {page : DataPage κ} {record : ISAMRecord κ}

/-- The records are in the order of their keys. -/
def InOrder (records : List (ISAMRecord κ)) : Prop := records.Pairwise fun a b => a.key ≤ b.key

/-- Records are in order when their keys are. -/
theorem inOrder_iff {records : List (ISAMRecord κ)} :
    InOrder records ↔ (records.map (·.key)).Pairwise (· ≤ ·) := List.pairwise_map.symm

variable [IntCast κ]

/-- `insertRecord` puts the record among those of the page, in order. -/
def KeepsOrder (page : DataPage κ) (record : ISAMRecord κ) : Prop :=
  ∃ page', page.insertRecord record = .ok page' ∧ InOrder page'.live ∧
    page'.live.Perm (record :: page.live) ∧ page'.count = page.count + 1

/-- `splitAndInsert` puts the records of the page and the new one on two pages, in order. -/
def SplitsInOrder (page : DataPage κ) (record : ISAMRecord κ) (memory : Slots κ) : Prop :=
  ∃ page1 page2, page.splitAndInsert record memory = .ok (page1, page2) ∧ InOrder page1.live ∧
    InOrder page2.live ∧ InOrder (page1.live ++ page2.live) ∧
    (page1.live ++ page2.live).Perm (record :: page.live)

/-! ## Insertion -/

/-- `insertRecord` into a page that has room and is in order. -/
theorem insertRecord_inOrder_iff (record : ISAMRecord κ) (h : page.count < 3)
    (hs : InOrder page.live) :
    ∃ page', page.insertRecord record = .ok page' ∧ page'.live.Perm (record :: page.live) ∧
      page'.count = page.count + 1 ∧ (InOrder page'.live ↔
        GoesInOrder (page.live.map (·.key)) (page.getKey page.count) record.key) := by
  obtain ⟨page', l1, l2, hins, hold, hnew, hshifted, hcount, -⟩ := insertRecord_shifted record h
  refine ⟨page', hins, ?_, hcount, ?_⟩
  · rw [hold, hnew]
    exact List.perm_middle
  · rw [inOrder_iff, hold, List.map_append] at hs
    rw [inOrder_iff, hnew, hold, List.map_append, List.map_append, List.map_cons]
    exact hshifted.pairwise_iff hs

/-- `insertRecord` keeps the order when the key goes to its place, and what is left in the slot
behind the records decides on that. -/
theorem keepsOrder_iff_goesInOrder (h : page.count < 3) (hs : InOrder page.live) :
    page.KeepsOrder record ↔
      GoesInOrder (page.live.map (·.key)) (page.getKey page.count) record.key := by
  obtain ⟨page', hins, hperm, hcount, hiff⟩ := insertRecord_inOrder_iff record h hs
  rw [← hiff]
  constructor
  · rintro ⟨page1, hins1, hs1, -⟩
    cases hins.symm.trans hins1
    exact hs1
  · exact fun hs' => ⟨page', hins, hs', hperm, hcount⟩

/-- A new key between two others is misplaced whatever the memory holds. -/
theorem not_keepsOrder_of_between (h : page.count < 3) (hs : InOrder page.live)
    {r1 r2 : ISAMRecord κ} (h1 : r1 ∈ page.live) (h2 : r2 ∈ page.live) (hlt1 : r1.key < record.key)
    (hlt2 : record.key < r2.key) (hnew : ∀ r ∈ page.live, r.key ≠ record.key) :
    ¬ page.KeepsOrder record := by
  rw [keepsOrder_iff_goesInOrder h hs]
  refine not_goesInOrder (List.mem_map_of_mem h1) (List.mem_map_of_mem h2) hlt1 hlt2 fun hmem => ?_
  obtain ⟨r, hr, hkey⟩ := List.mem_map.1 hmem
  exact hnew r hr hkey

/-! ## The split -/

/-- The `while` of `splitAndInsert` comes to the front when the record is below all others. -/
theorem splitIndex_eq_zero_iff {n : Nat} :
    page.splitIndex record n = 0 ↔ ∀ i < n, record.key < page.getKey (i + 1) := by
  induction n with
  | zero => exact iff_of_true rfl nofun
  | succ n ih =>
    rw [splitIndex, Nat.forall_lt_succ_right]
    split_ifs with hlt
    · rw [ih, and_iff_left hlt]
    · exact iff_of_false nofun fun h => hlt h.2

/-- The half that the record goes to, of a page in order. -/
theorem splitIndex_eq_zero_of_inOrder (record : ISAMRecord κ) (h : page.count = 3)
    (hs : InOrder page.live) :
    page.splitIndex record 2 = 0 ↔ record.key < page.getKey 1 := by
  rw [splitIndex_eq_zero_iff]
  constructor
  · exact fun hall => hall 0 (by decide)
  · intro hlt i hi
    rw [live_of_full h] at hs
    have hle : page.getKey 1 ≤ page.getKey 2 :=
      (List.pairwise_cons.1 (List.pairwise_cons.1 hs).2).1 _ (.head _)
    obtain rfl | rfl : i = 0 ∨ i = 1 := by omega
    · exact hlt
    · exact hlt.trans_le hle

/-- Both pages are in order, one behind the other, when their records together are. -/
theorem splitsInOrder_iff_inOrder {memory : Slots κ} {page1 page2 : DataPage κ}
    (hsplit : page.splitAndInsert record memory = .ok (page1, page2))
    (hperm : (page1.live ++ page2.live).Perm (record :: page.live)) :
    page.SplitsInOrder record memory ↔ InOrder (page1.live ++ page2.live) := by
  constructor
  · rintro ⟨page1', page2', hsplit', -, -, hs, -⟩
    cases hsplit.symm.trans hsplit'
    exact hs
  · intro hs
    obtain ⟨hs1, hs2, -⟩ := List.pairwise_append.1 hs
    exact ⟨page1, page2, hsplit, hs1, hs2, hs, hperm⟩

/-- `splitAndInsert` keeps the order when the key goes to its place on its half. -/
theorem splitsInOrder_iff_goesInOrder (h : page.count = 3) (hs : InOrder page.live)
    (memory : Slots κ) : page.SplitsInOrder record memory ↔
      if record.key < page.getKey 1 then
        GoesInOrder [page.getKey 0] ((-1 : Int) : κ) record.key
      else
        GoesInOrder [page.getKey 1, page.getKey 2] ((new memory).getKey 2) record.key := by
  obtain ⟨page1, page2, hhalves, hsplit⟩ := splitAndInsert_halves record memory h
  have hlive : page.live = page1.live ++ page2.live := by
    rw [hhalves.live1, hhalves.live2, live_of_full h]
    rfl
  obtain ⟨hs1, hs2, hcross⟩ := List.pairwise_append.1 (hlive ▸ hs)
  have hc1 := hhalves.count1
  have hc2 := hhalves.count2
  have hfront := splitIndex_eq_zero_of_inOrder record h hs
  split_ifs with hlt
  · obtain ⟨page1', hins, hperm, -, hiff⟩ :=
      insertRecord_inOrder_iff record (show page1.count < 3 by omega) hs1
    rw [hhalves.live1, hc1, hhalves.behind1] at hiff
    rw [if_pos (hfront.2 hlt), hins] at hsplit
    have hall : (page1'.live ++ page2.live).Perm (record :: page.live) := by
      rw [hlive]
      exact hperm.append_right page2.live
    refine (splitsInOrder_iff_inOrder hsplit hall).trans (Iff.trans ?_ hiff)
    -- the record is below those of the second half
    refine List.pairwise_append.trans ⟨And.left, fun hs1' => ⟨hs1', hs2, fun x hx y hy => ?_⟩⟩
    rcases List.mem_cons.1 (hperm.subset hx) with rfl | hx
    · rw [hhalves.live2] at hs2 hy
      rcases List.mem_cons.1 hy with rfl | hy
      · exact hlt.le
      · exact hlt.le.trans ((List.pairwise_cons.1 hs2).1 y hy)
    · exact hcross x hx y hy
  · obtain ⟨page2', hins, hperm, -, hiff⟩ :=
      insertRecord_inOrder_iff record (show page2.count < 3 by omega) hs2
    rw [hhalves.live2, hc2, hhalves.behind2] at hiff
    rw [if_neg (mt hfront.1 hlt), hins] at hsplit
    have hall : (page1.live ++ page2'.live).Perm (record :: page.live) := by
      rw [hlive]
      exact (hperm.append_left page1.live).trans List.perm_middle
    refine (splitsInOrder_iff_inOrder hsplit hall).trans (Iff.trans ?_ hiff)
    -- the record is not below the one of the first half
    refine List.pairwise_append.trans
      ⟨fun hs' => hs'.2.1, fun hs2' => ⟨hs1, hs2', fun x hx y hy => ?_⟩⟩
    rcases List.mem_cons.1 (hperm.subset hy) with rfl | hy
    · have hfirst : page.getRecord 1 ∈ page2.live := hhalves.live2 ▸ .head _
      exact (hcross x hx _ hfirst).trans (not_lt.1 hlt)
    · exact hcross x hx y hy

/-! ## The code and the order -/

/-- A page in order stays in order, and a full page is split into pages in order, exactly for the
records whose keys go in order into the page or into the half that they go to. -/
theorem keepsOrder_iff (record : ISAMRecord κ) (hs : InOrder page.live) :
    (page.count < getCapacity → (page.KeepsOrder record ↔
      GoesInOrder (page.live.map (·.key)) (page.getKey page.count) record.key)) ∧
    (page.count = getCapacity → ∀ memory, (page.SplitsInOrder record memory ↔
      if record.key < page.getKey 1 then
        GoesInOrder [page.getKey 0] ((-1 : Int) : κ) record.key
      else
        GoesInOrder [page.getKey 1, page.getKey 2] ((new memory).getKey 2) record.key)) :=
  ⟨fun h => keepsOrder_iff_goesInOrder h hs, fun h => splitsInOrder_iff_goesInOrder h hs⟩

/-- Three slots with these keys. -/
def slots (a b c : Int) : Slots Int := ⟨[{ key := a }, { key := b }, { key := c }], rfl⟩

/-- A record that is above those of the page. -/
theorem keepsOrder_iff_sample : ∃ page full : DataPage Int, page.live ≠ [] ∧ full.live ≠ [] ∧
    page.KeepsOrder { key := 40 } ∧ full.SplitsInOrder { key := 40 } (slots 0 0 0) := by
  let page : DataPage Int := ⟨slots 10 30 0, -1, 2⟩
  let full : DataPage Int := ⟨slots 10 20 30, -1, 3⟩
  have hpage : InOrder page.live := inOrder_iff.2 (by decide)
  have hfull : InOrder full.live := inOrder_iff.2 (by decide)
  exact ⟨page, full, by decide, by decide, ((keepsOrder_iff _ hpage).1 (by decide)).2 (by decide),
    ((keepsOrder_iff _ hfull).2 rfl _).2 (by decide)⟩

/-- A record between the two of a page goes behind them, over a slot that has been cleared to zero,
and one below the records of a full page behind the first of them. -/
theorem not_keepsOrder : ∃ page full : DataPage Int,
    (InOrder page.live ∧ page.count < getCapacity ∧ ¬ page.KeepsOrder { key := 20 }) ∧
    InOrder full.live ∧ full.count = getCapacity ∧
      ¬ full.SplitsInOrder { key := 5 } (slots 0 0 0) := by
  let page : DataPage Int := ⟨slots 10 30 0, -1, 2⟩
  let full : DataPage Int := ⟨slots 10 20 30, -1, 3⟩
  have hpage : InOrder page.live := inOrder_iff.2 (by decide)
  have hfull : InOrder full.live := inOrder_iff.2 (by decide)
  refine ⟨page, full, ⟨hpage, by decide, fun h => ?_⟩, hfull, rfl, fun h => ?_⟩
  · exact absurd ((keepsOrder_iff_goesInOrder (by decide) hpage).1 h) (by decide)
  · exact absurd ((splitsInOrder_iff_goesInOrder rfl hfull _).1 h) (by decide)

end DataPage

end Rdbms
