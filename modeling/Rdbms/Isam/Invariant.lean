import Rdbms.Lib.Loop
import Rdbms.Lib.Partition
import Rdbms.Isam.Page

/-!
# What the files of an ISAM index hold

The index pages are the separators of 27 buckets (`Covers`): three levels of pages with two keys
each. The data pages are 27 chains, one a bucket, of pages that hold one to three records each. A
record with its chain through the duplicates file is an entry of the bucket.
-/

namespace Rdbms

namespace ISAM
variable {κ : Type} {isam isam' : ISAM κ} {pos child : Int} {page : DataPage κ} {sep : Nat → κ}
  {level lo : Nat}

/-- A page with its offset. -/
def cellAt (isam : ISAM κ) (pos : Int) : Option (Int × DataPage κ) := (isam.readPage pos).map (pos, ·)

/-- The pages of a chain, which starts at the offset `pos`. -/
def Chain (isam : ISAM κ) (pos : Int) (cells : List (Int × DataPage κ)) : Prop :=
  Path isam.cellAt (·.2.next) pos cells endOfFile

/-- The records of a chain of pages. -/
def live (cells : List (Int × DataPage κ)) : List (ISAMRecord κ) := cells.flatMap (·.2.live)

/-- A record and its duplicates are an entry. -/
def IsEntry (dupFile : List (ISAMRecord κ)) (record : ISAMRecord κ) (e : Entry κ Int) : Prop :=
  record.key = e.key ∧ HasPositions isamDuplicatesLayout dupFile record e.first e.rest

/-- The page at `pos` is the root of `level` levels of index pages over the chains from `lo` on, of
which every two are separated by a key. -/
def Covers (isam : ISAM κ) (sep : Nat → κ) : Nat → Int → Nat → Prop
  | 0, pos, lo => pos = dataPageLayout.pos lo
  | level + 1, pos, lo => ∃ page c0 c1 c2, indexPageLayout.read isam.idxFile pos = some page ∧
      page.isLeaf = (level = 0 : Bool) ∧
      page.keys = [sep (lo + 3 ^ level - 1), sep (lo + 2 * 3 ^ level - 1)] ∧
      page.children = [c0, c1, c2] ∧ isam.Covers sep level c0 lo ∧
      isam.Covers sep level c1 (lo + 3 ^ level) ∧ isam.Covers sep level c2 (lo + 2 * 3 ^ level)

/-- A page with its records. -/
def PageOk (cell : Int × DataPage κ) : Prop := 1 ≤ cell.2.count ∧ cell.2.count ≤ 3

variable {cells : List (Int × DataPage κ)} {c : Int × DataPage κ}

/-- The first page of a chain. -/
theorem Chain.cons_iff : isam.Chain pos (c :: cells) ↔
    c.1 = pos ∧ isam.readPage pos = some c.2 ∧ isam.Chain c.2.next cells := by
  rw [Chain, Path.cons_iff, cellAt, Option.map_eq_some_iff]
  constructor
  · rintro ⟨⟨page, hpage, rfl⟩, h⟩
    exact ⟨rfl, hpage, h⟩
  · rintro ⟨rfl, hpage, h⟩
    exact ⟨⟨c.2, hpage, rfl⟩, h⟩

/-- A chain goes on when its page has a next one. -/
theorem Chain.eq_nil_iff (h : isam.Chain pos cells) : cells = [] ↔ pos = -1 := by
  cases cells with
  | nil => exact ⟨fun _ => Path.nil_iff.1 h, fun _ => rfl⟩
  | cons c cells =>
    obtain ⟨-, hpage, -⟩ := Chain.cons_iff.1 h
    exact ⟨nofun, fun h => absurd h (Layout.ne_neg_one_of_read hpage)⟩

/-- The records of a chain are those of its first page and of the others. -/
theorem live_cons : live (c :: cells) = c.2.live ++ live cells := List.flatMap_cons

variable [LinearOrder κ]

/-- The files hold the buckets `P` in the chains `C`. -/
structure WellFormed (isam : ISAM κ) (P : Partition κ Int 27)
    (C : Nat → List (Int × DataPage κ)) : Prop where
  root : isam.Covers P.sep 3 isam.root 0
  leaves : ∀ page ∈ isam.idxFile, page.isLeaf →
    ∀ child ∈ page.children, ∃ q < 27, child = dataPageLayout.pos q
  chain : ∀ q < 27, isam.Chain (dataPageLayout.pos q) (C q)
  pages : ∀ q < 27, ∀ c ∈ C q, PageOk c
  disjoint : ∀ q < 27, ∀ r < 27, q ≠ r → ∀ c ∈ C q, ∀ d ∈ C r, c.1 ≠ d.1
  entries : ∀ q < 27, List.Forall₂ (IsEntry isam.dupFile) (live (C q)) (P.bucket q)

section
variable {P : Partition κ Int 27} {C : Nat → List (Int × DataPage κ)} {past : κ → Bool}

omit [LinearOrder κ] in
/-- There is a root. -/
theorem Covers.root_ne (h : isam.Covers sep 3 isam.root 0) : isam.root ≠ -1 := by
  obtain ⟨page, -, -, -, hread, -⟩ := h
  exact Layout.ne_neg_one_of_read hread

/-- Every chain has a page. -/
theorem WellFormed.chain_ne (h : isam.WellFormed P C) {q : Nat} (hq : q < 27) : C q ≠ [] :=
  mt (h.chain q hq).eq_nil_iff.1 Layout.pos_ne_neg_one

/-! ## The way down -/

/-- A range of buckets that has all separators in front of it that satisfy `past`, and none behind
it. -/
structure Between (P : Partition κ Int 27) (past : κ → Bool) (lo width : Nat) : Prop where
  le : lo + width ≤ 27
  before : ∀ i < lo, past (P.sep i) = true
  behind : ∀ i, lo + width ≤ i + 1 → i + 1 < 27 → past (P.sep i) = false

/-- The child of an index page where the separators that satisfy `past` end. -/
theorem exists_child (hmono : ∀ i j, i ≤ j → j + 1 < 27 → past (P.sep j) = true → past (P.sep i) = true)
    {page : IndexPage κ} {c0 c1 c2 : Int} {w : Nat} (hw : 0 < w) (h : Between P past lo (3 * w))
    (hkeys : page.keys = [P.sep (lo + w - 1), P.sep (lo + 2 * w - 1)])
    (hchildren : page.children = [c0, c1, c2]) :
    ∃ child i, page.children[page.keys.findIdx (!past ·)]? = some child ∧
      Between P past (lo + i * w) w ∧
      (i = 0 ∧ child = c0 ∨ i = 1 ∧ child = c1 ∨ i = 2 ∧ child = c2) := by
  obtain ⟨hle, hbefore, hbehind⟩ := h
  rw [hkeys, hchildren]
  cases h0 : past (P.sep (lo + w - 1)) with
  | false =>
    refine ⟨c0, 0, ?_, ⟨by omega, fun i hi => hbefore i (by omega), fun i hi hin => ?_⟩,
      .inl ⟨rfl, rfl⟩⟩
    · simp [List.findIdx_cons, h0]
    · refine Bool.eq_false_iff.2 fun hp => ?_
      rw [hmono (lo + w - 1) i (by omega) hin hp] at h0
      cases h0
  | true =>
    cases h1 : past (P.sep (lo + 2 * w - 1)) with
    | false =>
      refine ⟨c1, 1, ?_, ⟨by omega, fun i hi => ?_, fun i hi hin => ?_⟩, .inr (.inl ⟨rfl, rfl⟩)⟩
      · simp [List.findIdx_cons, h0, h1]
      · exact hmono i (lo + w - 1) (by omega) (by omega) h0
      · refine Bool.eq_false_iff.2 fun hp => ?_
        rw [hmono (lo + 2 * w - 1) i (by omega) hin hp] at h1
        cases h1
    | true =>
      refine ⟨c2, 2, ?_, ⟨by omega, fun i hi => ?_, fun i hi hin => ?_⟩, .inr (.inr ⟨rfl, rfl⟩)⟩
      · simp [List.findIdx_cons, h0, h1]
      · exact hmono i (lo + 2 * w - 1) (by omega) (by omega) h1
      · exact hbehind i (by omega) hin

/-- The way down ends at the first page of the bucket behind the separators that satisfy `past`. -/
theorem descend_of_covers
    (hmono : ∀ i j, i ≤ j → j + 1 < 27 → past (P.sep j) = true → past (P.sep i) = true) :
    ∀ {level : Nat} {pos : Int} {lo : Nat}, isam.Covers P.sep (level + 1) pos lo →
      Between P past lo (3 ^ (level + 1)) →
      ∃ q, Returns (isam.descend past · pos) (dataPageLayout.pos q) ∧ P.Route (past · = true) q := by
  intro level
  induction level with
  | zero =>
    intro pos lo ⟨page, c0, c1, c2, hread, hleaf, hkeys, hchildren, h0, h1, h2⟩ h
    obtain ⟨child, i, hchild, hbetween, hi⟩ := exists_child hmono (by simp) h hkeys hchildren
    refine ⟨lo + i, .of_succ (.of_eq fun fuel => ?_), ?_⟩
    · have hpos : child = dataPageLayout.pos (lo + i) := by
        rcases hi with ⟨rfl, rfl⟩ | ⟨rfl, rfl⟩ | ⟨rfl, rfl⟩
        · exact h0
        · exact h1
        · exact h2
      rw [descend, hread]
      simp only [Option.bind_eq_bind, Option.bind_some, hchild, hleaf, decide_true, if_true, hpos]
    · rw [pow_zero, mul_one] at hbetween
      obtain ⟨hle, hbefore, hbehind⟩ := hbetween
      refine ⟨by omega, fun j hj => hbefore j (by omega), fun j hj hjn => ?_⟩
      exact Bool.eq_false_iff.1 (hbehind j (by omega) hjn)
  | succ level ih =>
    intro pos lo ⟨page, c0, c1, c2, hread, hleaf, hkeys, hchildren, h0, h1, h2⟩ h
    obtain ⟨child, i, hchild, hbetween, hi⟩ := exists_child hmono (Nat.pow_pos (by decide))
      (pow_succ' 3 (level + 1) ▸ h) hkeys hchildren
    have hcovers : isam.Covers P.sep (level + 1) child (lo + i * 3 ^ (level + 1)) := by
      rcases hi with ⟨rfl, rfl⟩ | ⟨rfl, rfl⟩ | ⟨rfl, rfl⟩
      · simpa using h0
      · simpa using h1
      · exact h2
    obtain ⟨q, hret, hroute⟩ := ih hcovers hbetween
    refine ⟨q, .of_succ (hret.congr fun fuel => ?_), hroute⟩
    rw [descend, hread]
    simp only [Option.bind_eq_bind, Option.bind_some, hchild, hleaf]
    simp

/-- The way down from the root ends at the bucket of the key. -/
theorem Covers.descend (h : isam.Covers P.sep 3 isam.root 0) (past : κ → Bool)
    (hmono : ∀ i j, i ≤ j → j + 1 < 27 → past (P.sep j) = true → past (P.sep i) = true) :
    ∃ q, Returns (isam.descend past · isam.root) (dataPageLayout.pos q) ∧
      P.Route (past · = true) q :=
  descend_of_covers hmono h ⟨by decide, fun i hi => absurd hi (by omega),
    fun i hi hin => absurd hin (by simp at hi; omega)⟩

/-- The way down to the bucket of a key. -/
theorem Covers.descend_le (h : isam.Covers P.sep 3 isam.root 0) (k : κ) :
    ∃ q, Returns (isam.descend (· ≤ k) · isam.root) (dataPageLayout.pos q) ∧
      P.Route (· ≤ k) q := by
  obtain ⟨q, hret, hroute⟩ := h.descend (fun s => decide (s ≤ k)) fun i j hij hj hk => by
    simp only [decide_eq_true_eq] at hk ⊢
    exact (P.sep_mono i j hij hj).trans hk
  exact ⟨q, hret, by simpa using hroute⟩

/-- The way down to the bucket where a range starts. -/
theorem Covers.descend_lt (h : isam.Covers P.sep 3 isam.root 0) (k : κ) :
    ∃ q, Returns (isam.descend (· < k) · isam.root) (dataPageLayout.pos q) ∧
      P.Route (· < k) q := by
  obtain ⟨q, hret, hroute⟩ := h.descend (fun s => decide (s < k)) fun i j hij hj hk => by
    simp only [decide_eq_true_eq] at hk ⊢
    exact (P.sep_mono i j hij hj).trans_lt hk
  exact ⟨q, hret, by simpa using hroute⟩

end

end ISAM

end Rdbms
