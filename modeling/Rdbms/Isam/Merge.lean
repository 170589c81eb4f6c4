import Rdbms.Isam.Erase
import Rdbms.Isam.Insert

/-!
# The merge of two pages

A removal that leaves one record on a page merges the page with the next one of its chain. When the
records of both fit on a page, the next page is left out of the chain. Otherwise it gives its first
record away. The next page is written by `merge` and the page itself by the caller, and the chain
holds the same records in the same order then.
-/

namespace Rdbms

/-! ## Records of a page -/

namespace DataPage
variable {κ : Type} [IntCast κ] [LinearOrder κ] {page nextPage : DataPage κ} {i n : Nat}

omit [IntCast κ] [LinearOrder κ] in
/-- A page has as many records as it counts. -/
theorem length_live (h : page.count ≤ 3) : page.live.length = page.count := by
  rw [live, List.length_take, page.records.2]
  omega

omit [LinearOrder κ] in
/-- A record of a page is in its slot. -/
theorem getElem?_live (h : i < page.count) (hle : page.count ≤ 3) :
    page.live[i]? = some (page.getRecord i) := by
  rw [live, List.getElem?_take_of_lt h, getElem?_records (by omega)]

omit [LinearOrder κ] in
/-- `remove` of a record that is there. -/
theorem remove_live (hi : i < page.count) (hle : page.count ≤ 3) :
    ∃ page', page.remove i = .ok page' ∧ page'.live = page.live.eraseIdx i ∧
      page'.count = page.count - 1 ∧ page'.next = page.next := by
  obtain ⟨a, b, c, h, hpage⟩ := page.exists_eq
  generalize page.next = next at *
  obtain hc | hc | hc : page.count = 1 ∨ page.count = 2 ∨ page.count = 3 := by omega
  · rw [hc] at hpage hi
    subst hpage
    obtain rfl : i = 0 := by omega
    exact ⟨_, rfl, rfl, rfl, rfl⟩
  · rw [hc] at hpage hi
    subst hpage
    obtain rfl | rfl : i = 0 ∨ i = 1 := by omega
    · exact ⟨_, rfl, rfl, rfl, rfl⟩
    · exact ⟨_, rfl, rfl, rfl, rfl⟩
  · rw [hc] at hpage hi
    subst hpage
    obtain rfl | rfl | rfl : i = 0 ∨ i = 1 ∨ i = 2 := by omega
    · exact ⟨_, rfl, rfl, rfl, rfl⟩
    · exact ⟨_, rfl, rfl, rfl, rfl⟩
    · exact ⟨_, rfl, rfl, rfl, rfl⟩

omit [IntCast κ] [LinearOrder κ] in
/-- A record behind those of a page that has room. -/
theorem setRecord_live_concat (record : ISAMRecord κ) (h : page.count < 3) :
    (page.setRecord record page.count).live = page.live ++ [record] := by
  have hlt : page.count < page.records.1.length := by rwa [page.records.2]
  show (page.records.1.set page.count record).take (page.count + 1) = _
  rw [List.take_add_one, List.getElem?_set_self hlt, List.take_set_of_le le_rfl]
  rfl

omit [LinearOrder κ] in
/-- The `for` of `merge`: the first `n` records of the next page behind those of a page. -/
theorem absorb_live (h3 : nextPage.count ≤ 3) : ∀ {n}, n ≤ nextPage.count → page.count + n ≤ 3 →
    ∃ merged : DataPage κ, (List.range n).foldl (fun merged i =>
        merged.setRecord (nextPage.getRecord i) (page.count + i)) page = merged ∧
      merged.live = page.live ++ nextPage.live.take n ∧ merged.count = page.count + n := by
  intro n
  induction n with
  | zero => exact fun _ _ => ⟨page, rfl, (List.append_nil _).symm, rfl⟩
  | succ n ih =>
    intro hn hle
    obtain ⟨merged, hmerged, hlive, hcount⟩ := ih (by omega) (by omega)
    refine ⟨merged.setRecord (nextPage.getRecord n) merged.count, ?_, ?_, ?_⟩
    · rw [List.range_succ, List.foldl_append, hmerged, hcount]
      rfl
    · rw [setRecord_live_concat _ (by omega), hlive, List.take_add_one,
        getElem?_live (by omega) h3, List.append_assoc]
      rfl
    · show merged.count + 1 = _
      rw [hcount, Nat.add_assoc]

end DataPage

/-! ## The merge -/

namespace ISAM
variable {κ : Type} {isam isam' : ISAM κ} {pos : Int} {page page' stored nextPage : DataPage κ}
  {cells rest : List (Int × DataPage κ)}

/-- What `merge` makes of a page and the next one. -/
inductive Merged (isam : ISAM κ) (page nextPage : DataPage κ) : ISAM κ → DataPage κ → Prop
  | absorbed {page' : DataPage κ} (live : page'.live = page.live ++ nextPage.live)
      (count : page'.count = page.count + nextPage.count) (le : page'.count ≤ 3)
      (next : page'.next = nextPage.next) : Merged isam page nextPage isam page'
  | borrowed {page' nextPage' : DataPage κ} {record : ISAMRecord κ}
      (nextLive : nextPage.live = record :: nextPage'.live) (live : page'.live = page.live ++ [record])
      (count : page'.count = 2) (nextCount : nextPage'.count = 2) (next : page'.next = page.next)
      (nextNext : nextPage'.next = nextPage.next) :
      Merged isam page nextPage (isam.writePage page.next nextPage') page'

/-- A page written in front of a chain that it links to. -/
theorem Chain.write (hread : isam.readPage pos = some stored) (hc : isam.Chain page.next cells)
    (hout : ∀ c ∈ cells, c.1 ≠ pos) : (isam.writePage pos page).Chain pos ((pos, page) :: cells) := by
  refine Chain.cons_iff.2 ⟨rfl, ?_, Path.congr hc fun q d hd hq => ?_⟩
  · rw [readPage_writePage hread, if_pos rfl]
  · obtain ⟨page', hpage', rfl⟩ := Option.map_eq_some_iff.1 hq
    have hne : q ≠ pos := hout _ hd
    rw [cellAt, readPage_writePage hread, if_neg hne, hpage', Option.map_some]

variable [IntCast κ]

/-- `merge` of a page with its next one. -/
theorem merge_cases (h1 : page.count ≤ 1) (h3 : nextPage.count ≤ 3)
    (hread : isam.readPage page.next = some nextPage) :
    ∃ isam' page', isam.merge page = some (.ok page', isam') ∧
      Merged isam page nextPage isam' page' := by
  rw [merge, if_neg (Layout.ne_neg_one_of_read hread), hread]
  simp only [Option.bind_eq_bind, Option.bind_some]
  by_cases hfit : page.count + nextPage.count ≤ DataPage.getCapacity
  · obtain ⟨merged, hmerged, hlive, hcount⟩ := DataPage.absorb_live h3 le_rfl hfit
    rw [List.take_of_length_le (DataPage.length_live h3).le] at hlive
    rw [if_pos hfit, hmerged]
    exact ⟨isam, merged.setNext nextPage.next, rfl, .absorbed hlive hcount (hcount.trans_le hfit) rfl⟩
  · have hmore : ¬ page.count + nextPage.count ≤ 3 := hfit
    have hone : page.count = 1 := by omega
    have hfull : nextPage.count = 3 := by omega
    have hhead : nextPage.live[0]? = some (nextPage.getRecord 0) :=
      DataPage.getElem?_live (by omega) h3
    obtain ⟨nextPage', hremove, hlive, hcount, hnext⟩ :=
      DataPage.remove_live (i := 0) (by omega) h3
    rw [List.eraseIdx_zero] at hlive
    have hcons : nextPage.live = nextPage.getRecord 0 :: nextPage'.live := by
      rw [hlive]
      exact (List.cons_head?_tail (by rw [List.head?_eq_getElem?, hhead]; rfl)).symm
    rw [if_neg hfit, hremove]
    refine ⟨_, _, rfl, .borrowed hcons (DataPage.setRecord_live_concat _ (by omega)) ?_ ?_ rfl hnext⟩
    · show page.count + 1 = 2
      rw [hone]
    · rw [hcount, hfull]

/-- A merge keeps the records of a chain, in their order. The page links past the next one when it
has all records of it, and to the next one otherwise, with the pages behind in place. -/
theorem merge_keeps_records (h1 : page.count ≤ 1) (h3 : nextPage.count ≤ 3)
    (hc : isam.Chain pos ((pos, stored) :: (page.next, nextPage) :: rest)) :
    ∃ isam' page' cells', isam.merge page = some (.ok page', isam') ∧
      (isam'.writePage pos page').Chain pos ((pos, page') :: cells') ∧
      live ((pos, page') :: cells') = live ((pos, page) :: (page.next, nextPage) :: rest) ∧
      ((∀ c ∈ rest, c.2.count ≤ 3) → ∀ c ∈ (pos, page') :: cells', c.2.count ≤ 3) ∧
      (cells' = rest ∨ ∃ nextPage', cells' = (page.next, nextPage') :: rest) ∧
      (cells' = rest ↔ page'.live = page.live ++ nextPage.live) := by
  obtain ⟨-, hread, hlink⟩ := Chain.cons_iff.1 hc
  obtain ⟨hnext, hnextRead, hrest⟩ := Chain.cons_iff.1 hlink
  rw [← hnext] at hlink hnextRead
  have hout : ∀ c ∈ (page.next, nextPage) :: rest, c.1 ≠ pos := fun c hc' => hc.ne_of_mem hc'
  obtain ⟨isam', page', hmerge, h⟩ := merge_cases h1 h3 hnextRead
  cases h with
  | absorbed hlive hcount hle hnext' =>
    refine ⟨isam, page', rest, hmerge, ?_, ?_, fun hle' c hc' => ?_, .inl rfl, fun _ => hlive,
      fun _ => rfl⟩
    · exact Chain.write hread (hnext' ▸ hrest) fun c hc' => hout c (.tail _ hc')
    · rw [live_cons, live_cons, live_cons, hlive, List.append_assoc]
    · rcases List.mem_cons.1 hc' with rfl | hc'
      · exact hle
      · exact hle' c hc'
  | @borrowed _ nextPage' record hnextLive hlive hcount hnextCount hnext' hnextNext =>
    have hshort : (isam.writePage page.next nextPage').Chain page'.next
        ((page.next, nextPage') :: rest) := by
      rw [hnext']
      exact Chain.write hnextRead (hnextNext ▸ hrest) fun c hc' => hlink.ne_of_mem hc'
    have hread' : (isam.writePage page.next nextPage').readPage pos = some stored := by
      rw [readPage_writePage hnextRead, if_neg (hout _ (.head _)).symm, hread]
    refine ⟨_, page', (page.next, nextPage') :: rest, hmerge, ?_, ?_, fun hle' c hc' => ?_,
      .inr ⟨nextPage', rfl⟩, fun he => ?_, fun he => ?_⟩
    · refine Chain.write hread' hshort fun c hc' => ?_
      rcases List.mem_cons.1 hc' with rfl | hc'
      · exact hout (page.next, nextPage) (.head _)
      · exact hout c (.tail _ hc')
    · rw [live_cons, live_cons, live_cons, live_cons, hlive, hnextLive, List.append_assoc]
      rfl
    · rcases List.mem_cons.1 hc' with rfl | hc'
      · exact hcount.trans_le (by decide)
      · rcases List.mem_cons.1 hc' with rfl | hc'
        · exact hnextCount.trans_le (by decide)
        · exact hle' c hc'
    · exact absurd he (List.cons_ne_self _ _)
    · -- two of the records of the next page are still on it
      rw [hlive, hnextLive] at he
      have hlen := congrArg List.length (List.append_cancel_left he)
      have htwo : nextPage'.live.length = 2 := by
        rw [DataPage.length_live (by omega), hnextCount]
      rw [List.length_singleton, List.length_cons, htwo] at hlen
      cases hlen

/-- A page with one record and two stale slots in front of a full page. -/
theorem merge_keeps_records_sample : ∃ (isam isam' : ISAM Int) (page page' : DataPage Int)
    (cells' : List (Int × DataPage Int)), isam.merge page = some (.ok page', isam') ∧
      (isam'.writePage 0 page').Chain 0 ((0, page') :: cells') ∧
      (live ((0, page') :: cells')).map (·.key) = [1, 4, 5, 6, 7] := by
  let slots (a b c : Int) : Slots Int := ⟨[{ key := a }, { key := b }, { key := c }], rfl⟩
  let stored : DataPage Int := ⟨slots 1 2 8, 152, 2⟩
  let page : DataPage Int := ⟨slots 1 0 8, 152, 1⟩
  let nextPage : DataPage Int := ⟨slots 4 5 6, 304, 3⟩
  let last : DataPage Int := ⟨slots 7 0 0, -1, 1⟩
  let isam : ISAM Int := ⟨0, [], [stored, nextPage, last], []⟩
  have hc : isam.Chain 0 [(0, stored), (152, nextPage), (304, last)] :=
    Chain.cons_iff.2 ⟨rfl, rfl, Chain.cons_iff.2 ⟨rfl, rfl, Chain.cons_iff.2 ⟨rfl, rfl, .nil⟩⟩⟩
  have h1 : page.count ≤ 1 := by decide
  obtain ⟨isam', page', cells', hmerge, hchain, hlive, -⟩ := merge_keeps_records h1 (by decide) hc
  refine ⟨isam, isam', page, page', cells', hmerge, hchain, ?_⟩
  rw [hlive]
  rfl

end ISAM

end Rdbms
