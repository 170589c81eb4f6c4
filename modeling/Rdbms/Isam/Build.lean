import Mathlib.Data.List.GetD
import Rdbms.Isam.Insert

/-!
# Loading

`build` sorts the records, puts the first 81 of them three by three into the data pages below the
three levels of the index, and inserts the rest. `Built` says what the loop over the children of an
index page leaves behind, one level after the other.
-/

namespace Rdbms

namespace ISAM
variable {κ : Type} [IntCast κ] {data : List (ISAMRecord κ)} {memory : Nat → Slots κ}
  {s s' : Builder κ} {pos : Int} {page : DataPage κ} {level : Nat}

/-- The key that separates the pages `i` and `i + 1`: the first one of the page `i + 1`. -/
def sepKey (data : List (ISAMRecord κ)) (i : Nat) : κ := (data.getD (3 * (i + 1)) default).key

/-- The data page with the records from `index` on. -/
structure Loaded (data : List (ISAMRecord κ)) (index : Nat) (page : DataPage κ) : Prop where
  live : page.live =
    [data.getD index default, data.getD (index + 1) default, data.getD (index + 2) default]
  count : page.count = 3
  next : page.next = -1

/-- What the files of a `Builder` hold at any time. -/
structure Builder.Ok (data : List (ISAMRecord κ)) (s : Builder κ) : Prop where
  index : s.index = 3 * s.dtFile.length
  pages : ∀ q page, s.dtFile[q]? = some page → Loaded data (3 * q) page
  leaves : ∀ page ∈ s.idxFile, page.isLeaf →
    ∀ child ∈ page.children, ∃ q < s.dtFile.length, child = dataPageLayout.pos q

/-- From `s` to `s'` an index page at `pos` with `level` levels over `3 ^ level` new data pages has
been built. -/
structure Built (data : List (ISAMRecord κ)) (level : Nat) (s : Builder κ) (pos : Int)
    (s' : Builder κ) : Prop where
  ok : s'.Ok data
  length : s'.dtFile.length = s.dtFile.length + 3 ^ level
  idxFile : s.idxFile <+: s'.idxFile
  covers : ∀ isam : ISAM κ, s'.idxFile <+: isam.idxFile →
    isam.Covers (sepKey data) level pos s.dtFile.length

/-- A data page. -/
theorem buildPage_built (memory : Nat → Slots κ) (hs : s.Ok data) :
    Built data 0 s (buildPage data memory s).1 (buildPage data memory s).2 := by
  obtain ⟨a, b, c, hm, hmem⟩ := (DataPage.new (memory s.index)).exists_eq
  have hpage : (buildPage data memory s).2 = { s with
      dtFile := s.dtFile ++ [⟨⟨[data.getD s.index default, data.getD (s.index + 1) default,
        data.getD (s.index + 1 + 1) default], rfl⟩, -1, 3⟩]
      index := s.index + 1 + 1 + 1 } := by
    rw [buildPage, hmem]
    rfl
  refine ⟨⟨?_, fun q page hq => ?_, fun page hpage' hleaf child hchild => ?_⟩, ?_, ?_, ?_⟩
  · have hindex := hs.index
    simp only [hpage, List.length_append, List.length_singleton]
    omega
  · rw [hpage] at hq
    rcases Nat.lt_or_ge q s.dtFile.length with hlt | hge
    · exact hs.pages q page (by rwa [List.getElem?_append_left hlt] at hq)
    · rw [List.getElem?_append_right hge, List.getElem?_singleton] at hq
      split_ifs at hq with h0
      obtain rfl : q = s.dtFile.length := by omega
      cases hq
      exact ⟨by rw [← hs.index]; rfl, rfl, rfl⟩
  · rw [hpage] at hpage' ⊢
    obtain ⟨q, hq, hpos⟩ := hs.leaves page hpage' hleaf child hchild
    exact ⟨q, by rw [List.length_append]; omega, hpos⟩
  · rw [hpage, List.length_append]
    rfl
  · have hidx : (buildPage data memory s).2.idxFile = s.idxFile := by rw [hpage]
    exact hidx ▸ List.prefix_refl _
  · exact fun isam _ => rfl

/-- A loop over three children, unrolled. -/
theorem buildNode_eq {isLeaf : Bool} {child : Builder κ → Int × Builder κ} {p0 p1 p2 : Int}
    {s0 s1 s2 : Builder κ} (h0 : child s = (p0, s0)) (h1 : child s0 = (p1, s1))
    (h2 : child s1 = (p2, s2)) : buildNode data isLeaf child s =
      (indexPageLayout.endPos s2.idxFile, { s2 with
        idxFile := s2.idxFile ++ [⟨[(data.getD s0.index default).key,
          (data.getD s1.index default).key], [p0, p1, p2], isLeaf⟩] }) := by
  simp only [buildNode, IndexPage.getCapacity, List.range_succ, List.range_zero, List.nil_append,
    List.cons_append, List.foldl_cons, List.foldl_nil, h0, h1, h2]
  rfl

/-- The separator in front of the next page to build. -/
theorem Builder.Ok.key_eq (hs : s.Ok data) {n : Nat} (hn : s.dtFile.length = n) (h : 0 < n) :
    (data.getD s.index default).key = sepKey data (n - 1) := by
  rw [sepKey, Nat.sub_add_cancel h, hs.index, hn]

/-- An index page over three pages of the level below it. -/
theorem buildNode_built (level : Nat) {child : Builder κ → Int × Builder κ}
    (hchild : ∀ s, s.Ok data → Built data level s (child s).1 (child s).2) (hs : s.Ok data) :
    Built data (level + 1) s (buildNode data (level = 0 : Bool) child s).1
      (buildNode data (level = 0 : Bool) child s).2 := by
  obtain ⟨p0, s0, h0⟩ : ∃ p s', child s = (p, s') := ⟨_, _, rfl⟩
  obtain ⟨p1, s1, h1⟩ : ∃ p s', child s0 = (p, s') := ⟨_, _, rfl⟩
  obtain ⟨p2, s2, h2⟩ : ∃ p s', child s1 = (p, s') := ⟨_, _, rfl⟩
  have b0 := hchild s hs
  rw [h0] at b0
  have b1 := hchild s0 b0.ok
  rw [h1] at b1
  have b2 := hchild s1 b1.ok
  rw [h2] at b2
  have hw : 0 < 3 ^ level := Nat.pow_pos (by decide)
  have hl1 : s1.dtFile.length = s.dtFile.length + 2 * 3 ^ level := by
    rw [b1.length, b0.length]
    ring
  have hl2 : s2.dtFile.length = s.dtFile.length + 3 ^ (level + 1) := by
    rw [b2.length, hl1, pow_succ]
    ring
  have hcovers : ∀ isam : ISAM κ, s2.idxFile <+: isam.idxFile →
      isam.Covers (sepKey data) level p0 s.dtFile.length ∧
      isam.Covers (sepKey data) level p1 (s.dtFile.length + 3 ^ level) ∧
      isam.Covers (sepKey data) level p2 (s.dtFile.length + 2 * 3 ^ level) := by
    intro isam hi
    refine ⟨b0.covers isam ?_, b0.length ▸ b1.covers isam ?_, hl1 ▸ b2.covers isam hi⟩
    · exact (b1.idxFile.trans b2.idxFile).trans hi
    · exact b2.idxFile.trans hi
  rw [buildNode_eq h0 h1 h2, b0.ok.key_eq b0.length (by omega), b1.ok.key_eq hl1 (by omega)]
  refine ⟨⟨b2.ok.index, b2.ok.pages, fun page hpage hleaf c hc => ?_⟩, hl2, ?_, fun isam hi => ?_⟩
  · rcases List.mem_append.1 hpage with hpage | hpage
    · exact b2.ok.leaves page hpage hleaf c hc
    · obtain rfl := List.mem_singleton.1 hpage
      obtain rfl : level = 0 := of_decide_eq_true hleaf
      obtain ⟨e0, e1, e2⟩ := hcovers ⟨-1, s2.idxFile, [], []⟩ (List.prefix_refl _)
      simp only [List.mem_cons, List.not_mem_nil, or_false] at hc
      show ∃ q < s2.dtFile.length, _
      rw [hl2]
      rcases hc with rfl | rfl | rfl
      · exact ⟨_, by simp, e0⟩
      · exact ⟨_, by simp, e1⟩
      · exact ⟨_, by simp, e2⟩
  · exact ((b0.idxFile.trans b1.idxFile).trans b2.idxFile).trans (List.prefix_append ..)
  · obtain ⟨rest, hrest⟩ := hi
    obtain ⟨e0, e1, e2⟩ := hcovers isam ⟨_, by rw [← hrest, List.append_assoc]⟩
    have hread : indexPageLayout.read isam.idxFile (indexPageLayout.endPos s2.idxFile) = some
        ⟨[sepKey data (s.dtFile.length + 3 ^ level - 1),
          sepKey data (s.dtFile.length + 2 * 3 ^ level - 1)], [p0, p1, p2], (level = 0 : Bool)⟩ := by
      rw [← hrest]
      exact Layout.read_append Layout.read_endPos_append
    exact ⟨_, p0, p1, p2, hread, rfl, rfl, rfl, e0, e1, e2⟩

/-- The three levels of the index. -/
theorem buildLevels_built (data : List (ISAMRecord κ)) (memory : Nat → Slots κ) :
    Built data 3 ⟨[], [], 0⟩ (buildLevels data memory).1
    (buildLevels data memory).2 := by
  have hempty : Builder.Ok data ⟨[], [], 0⟩ := by
    refine ⟨rfl, fun q page hq => ?_, fun page hpage => ?_⟩
    · cases hq
    · cases hpage
  exact buildNode_built 2 (fun _ h => buildNode_built 1
    (fun _ h => buildNode_built 0 (fun _ h => buildPage_built memory h) h) h) hempty

/-! ## The buckets -/

/-- A full page has the next three pairs. -/
theorem Loaded.live_eq {index : Nat} (h : Loaded data index page) (hi : index + 3 ≤ data.length) :
    page.live = (data.drop index).take 3 := by
  rw [h.live]
  refine List.ext_getElem ?_ fun i h1 h2 => ?_
  · rw [List.length_take, List.length_drop]
    show 3 = _
    omega
  · rw [List.getElem_take, List.getElem_drop]
    have hi3 : i < 3 := h1
    match i, hi3 with
    | 0, _ | 1, _ | 2, _ => exact List.getD_eq_getElem _ _ (by omega)

/-- A record without duplicates as an entry. -/
def entry (r : ISAMRecord κ) : Entry κ Int := ⟨r.key, r.pos, []⟩

omit [IntCast κ] in
/-- Records without duplicates are their entries. -/
theorem forall₂_entry {l : List (ISAMRecord κ)} (h : ∀ r ∈ l, r.dupPos = -1) :
    List.Forall₂ (IsEntry []) l (l.map entry) := by
  rw [List.forall₂_map_right_iff, List.forall₂_same]
  exact fun r hr => ⟨rfl, rfl, [], Path.nil_iff.2 (h r hr), rfl⟩

variable [LinearOrder κ]

/-- Three levels over the first 81 of the sorted records. -/
theorem wellFormed_of_built (h : Built data 3 ⟨[], [], 0⟩ pos s)
    (hsorted : data.Pairwise fun a b => a.key ≤ b.key) (hlen : maxRecords ≤ data.length)
    (hdup : ∀ r ∈ data, r.dupPos = -1) :
    s.index = maxRecords ∧ ∃ P C, (⟨pos, s.idxFile, s.dtFile, []⟩ : ISAM κ).WellFormed P C ∧
      P.pairs = (data.take maxRecords).map fun r => (r.key, r.pos) := by
  have hlen : 81 ≤ data.length := hlen
  have hpages : s.dtFile.length = 27 := h.length
  have hpage : ∀ q < 27, ∃ page, s.dtFile[q]? = some page := fun q hq =>
    ⟨_, List.getElem?_eq_getElem (hpages ▸ hq)⟩
  have hsep : ∀ i, i + 1 < 27 →
      ∃ x, (data.map entry)[3 * (i + 1)]? = some x ∧ x.key = sepKey data i := by
    intro i hi
    have hlt : 3 * (i + 1) < data.length := by omega
    refine ⟨entry data[3 * (i + 1)], by rw [List.getElem?_map, List.getElem?_eq_getElem hlt]; rfl, ?_⟩
    rw [sepKey, List.getD_eq_getElem _ _ hlt]
    rfl
  refine ⟨by rw [h.ok.index, hpages]; rfl,
    Partition.ofSorted (data.map entry) (sepKey data) 3 27 (List.pairwise_map.2 hsorted) hsep,
    fun q => (s.dtFile[q]?).toList.map (dataPageLayout.pos q, ·), ⟨?_, ?_, ?_, ?_, ?_, ?_⟩, ?_⟩
  · exact h.covers _ (List.prefix_refl _)
  · intro page hmem hleaf child hchild
    obtain ⟨q, hq, hpos⟩ := h.ok.leaves page hmem hleaf child hchild
    exact ⟨q, hpages ▸ hq, hpos⟩
  · intro q hq
    obtain ⟨page, hpage⟩ := hpage q hq
    rw [hpage]
    refine Chain.cons_iff.2 ⟨rfl, by rw [readPage, Layout.read_pos, hpage], ?_⟩
    exact Path.nil_iff.2 (h.ok.pages q page hpage).next
  · intro q hq c hc
    obtain ⟨page, hpage⟩ := hpage q hq
    rw [hpage] at hc
    obtain rfl := List.mem_singleton.1 hc
    have := (h.ok.pages q page hpage).count
    exact ⟨by show 1 ≤ page.count; omega, by show page.count ≤ 3; omega⟩
  · intro q hq r hr hne c hc d hd
    obtain ⟨_, -, rfl⟩ := List.mem_map.1 hc
    obtain ⟨_, -, rfl⟩ := List.mem_map.1 hd
    exact mt Layout.pos_inj hne
  · intro q hq
    obtain ⟨page, hpage⟩ := hpage q hq
    have hlive := (h.ok.pages q page hpage).live_eq (by omega)
    show List.Forall₂ _ (live _) (((data.map entry).drop (3 * q)).take 3)
    rw [hpage, ← List.map_drop, ← List.map_take, ← hlive]
    simp only [Option.toList_some, List.map_cons, List.map_nil, live, List.flatMap_cons,
      List.flatMap_nil, List.append_nil]
    refine forall₂_entry fun r hr => hdup r ?_
    rw [hlive] at hr
    exact List.mem_of_mem_drop (List.mem_of_mem_take hr)
  · rw [Partition.pairs_ofSorted, ← List.map_take, List.flatMap_map, List.map_eq_flatMap]
    rfl

/-! ## The rest of the records -/

/-- Inserting records one after the other. -/
theorem WellFormed.addRest (memory : Nat → Slots κ) : ∀ {isam : ISAM κ} {P : Partition κ Int 27}
    {C : Nat → List (Int × DataPage κ)} (index : Nat) (data : List (ISAMRecord κ)),
    isam.WellFormed P C → (∀ r ∈ data, r.dupPos = -1) →
    ∃ isam' P' C', Returns (ISAM.addRest memory · isam index data) (.ok (), isam') ∧
      isam'.WellFormed P' C' ∧ P'.pairs.Perm (data.map (fun r => (r.key, r.pos)) ++ P.pairs)
  | isam, P, C, _, [], h, _ => ⟨isam, P, C, .of_eq fun _ => rfl, h, .refl _⟩
  | isam, P, C, index, ⟨k, v, p⟩ :: data, h, hdup => by
    obtain rfl : p = -1 := hdup _ (.head _)
    obtain ⟨isam1, P1, C1, hret1, h1, hp1⟩ := h.addRecord (memory index) k v
    obtain ⟨isam2, P2, C2, hret2, h2, hp2⟩ := WellFormed.addRest memory (index + 1) data h1
      fun r hr => hdup r (.tail _ hr)
    refine ⟨isam2, P2, C2, ?_, h2, hp2.trans ?_⟩
    · filter_upwards [hret1, hret2] with fuel hfuel1 hfuel2
      rw [ISAM.addRest, hfuel1]
      exact hfuel2
    · exact (hp1.append_left _).trans List.perm_middle

/-- Loading a batch into a new index. -/
theorem bulkInsert_wellFormed {sort : List (ISAMRecord κ) → List (ISAMRecord κ)}
    (hsort : ∀ l, (sort l).Perm l ∧ (sort l).Pairwise fun a b => a.key ≤ b.key)
    (memory : Nat → Slots κ) (batch : List (κ × Int)) (hlen : maxRecords ≤ batch.length) :
    ∃ isam P C, Returns (create.bulkInsert sort memory · batch) (.ok ([1], [true]), isam) ∧
      isam.WellFormed P C ∧ P.pairs.Perm batch := by
  obtain ⟨hperm, hsorted⟩ := hsort (batch.map fun p => { key := p.1, pos := p.2 })
  generalize hdata : sort (batch.map fun p => { key := p.1, pos := p.2 }) = data at hperm hsorted
  have hdup : ∀ r ∈ data, r.dupPos = -1 := by
    intro r hr
    obtain ⟨p, -, rfl⟩ := List.mem_map.1 (hperm.mem_iff.1 hr)
    rfl
  have hlen' : maxRecords ≤ data.length := by
    rw [hperm.length_eq, List.length_map]
    exact hlen
  obtain ⟨hindex, P, C, h, hpairs⟩ :=
    wellFormed_of_built (buildLevels_built data memory) hsorted hlen' hdup
  obtain ⟨isam', P', C', hret, h', hpairs'⟩ := WellFormed.addRest memory maxRecords
    (data.drop maxRecords) h fun r hr => hdup r (List.mem_of_mem_drop hr)
  refine ⟨isam', P', C', ?_, h', ?_⟩
  · filter_upwards [hret] with fuel hfuel
    have hle : ¬ batch.length < maxRecords := hlen.not_gt
    rw [bulkInsert, build, List.length_map, if_neg hle]
    simp only [hdata, hindex, hfuel]
    rfl
  · rw [hpairs] at hpairs'
    refine hpairs'.trans (List.perm_append_comm.trans ?_)
    rw [← List.map_append, List.take_append_drop]
    refine (hperm.map _).trans ?_
    rw [List.map_map]
    exact .of_eq (List.map_id' _)

end ISAM

end Rdbms
