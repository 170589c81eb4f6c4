import Mathlib.Data.List.Basic
import Mathlib.Order.Lattice
import Rdbms.Lib.Loop
import Rdbms.Lib.RecordFile
import Rdbms.Lib.Path

/-!
# What the indexes share

The base class `Index::Index` and the base record `Index::Record`: file offsets, keys, the
exceptions an operation can throw, and the duplicates file. A record of an index holds the heap
position of the first row with its key; the rows that come later hang off it as a chain through the
duplicates file, linked by `dup_pos` and ended by `-1`.

A `physical_pos`, a `std::streampos`, is an `Int`: a byte offset, with `-1` for none. A
default-constructed one is `0`.

A stream on which a seek or a read has failed stays failed: nothing is read from it or written to it
any more. `good` says that a stream has not failed.
-/

namespace Rdbms

/-- `END_OF_FILE`. -/
abbrev endOfFile : Int := -1

/-- The exceptions the program throws. -/
inductive Exn
  | runtimeError (what : String)
  | invalidArgument (what : String)
  | outOfRange (what : String)
  | badVariantAccess
deriving DecidableEq, Repr

/-- How a call ended: with a value or with an exception, and the state it left behind. -/
abbrev Outcome (σ α : Type) := Except Exn α × σ

/-- A key type: `ValidData` asks for a total order. `ofOffset` is the key that a key field holds
after the low bytes of a file offset have been written over it. -/
class KeyType (κ : Type) extends LinearOrder κ, Inhabited κ where
  ofOffset : Int → κ

/-- The value of 32 bits read as a signed integer. -/
def toInt32 (z : Int) : Int := (z + 2 ^ 31) % 2 ^ 32 - 2 ^ 31

instance : KeyType Int where
  ofOffset := toInt32

/-- `Index::Record`. -/
structure Record (κ : Type) where
  data : κ
  rawPos : Int := 0
  dupPos : Int := 0
deriving DecidableEq

/-- The record types that inherit from `Index::Record`. -/
class IndexRecord (ρ : Type) (κ : outParam Type) where
  toRecord : ρ → Record κ
  setDupPos : ρ → Int → ρ
  dupPos_setDupPos : ∀ r p, (toRecord (setDupPos r p)).dupPos = p
  rawPos_setDupPos : ∀ r p, (toRecord (setDupPos r p)).rawPos = (toRecord r).rawPos
  data_setDupPos : ∀ r p, (toRecord (setDupPos r p)).data = (toRecord r).data

section
variable {ρ κ : Type} [IndexRecord ρ κ]
open IndexRecord

/-- `moveReadRecord`: seek and read, and whether the stream is good after it. A seek in front of the
file and a read past its end leave the record as it was. -/
def moveReadRecord (L : Layout) (file : List ρ) (good : Bool) (pos : Int) (record : ρ) : ρ × Bool :=
  match good, L.read file pos with
  | true, some record => (record, true)
  | _, _ => (record, false)

/-- One round of the `while` of `getAllRawCurrentRecords`. -/
def getAllRawBody (L : Layout) (duplicatesFile : List ρ) :
    ρ × Bool × List Int → Option (ρ × Bool × List Int ⊕ List Int)
  | (sir, good, records) =>
    if (toRecord sir).dupPos ≠ -1 then
      let (sir, good) := moveReadRecord L duplicatesFile good (toRecord sir).dupPos sir
      some (.inl (sir, good, records ++ [(toRecord sir).rawPos]))
    else some (.inr records)

/-- `Index::getAllRawCurrentRecords`: the positions to append to `records` for the record `sir`
and its chain. -/
def getAllRawCurrentRecords (L : Layout) (duplicatesFile : List ρ) (fuel : Nat) (sir : ρ)
    (records : List Int) : Option (List Int) :=
  loop (getAllRawBody L duplicatesFile) fuel (sir, true, records ++ [(toRecord sir).rawPos])

/-- `Index::insertDuplicateFile`: append to the duplicates file, and where it went. -/
def insertDuplicateFile (L : Layout) (duplicatesFile : List ρ) (rec : ρ) :
    List ρ × Int :=
  (duplicatesFile ++ [rec], L.endPos duplicatesFile)

/-! ## Duplicate chains -/

/-- The chain through the duplicates file that starts at `pos`. -/
def DupChain (L : Layout) (duplicatesFile : List ρ) (pos : Int) (chain : List ρ) : Prop :=
  Path (L.read duplicatesFile) (fun r => (toRecord r).dupPos) pos chain endOfFile

/-- The record at the offset `q` is on the chain that starts at `p`. -/
def OnDupChain (L : Layout) (duplicatesFile : List ρ) (p q : Int) : Prop :=
  Visits (L.read duplicatesFile) (fun r => (toRecord r).dupPos) p q

/-- No two of the chains that start at these offsets have a record in common. -/
def DisjointChains (L : Layout) (duplicatesFile : List ρ) (starts : List Int) : Prop :=
  starts.Pairwise fun p q => ∀ o, OnDupChain L duplicatesFile p o →
    ¬ OnDupChain L duplicatesFile q o

/-- The heap positions that a record stands for: its own, then those of its chain. -/
def HasPositions (L : Layout) (duplicatesFile : List ρ) (sir : ρ) (first : Int)
    (rest : List Int) : Prop :=
  (toRecord sir).rawPos = first ∧
    ∃ chain, DupChain L duplicatesFile (toRecord sir).dupPos chain ∧
      chain.map (fun r => (toRecord r).rawPos) = rest

variable {L : Layout} {duplicatesFile : List ρ} {sir r : ρ} {chain : List ρ} {pos : Int}

/-- A good stream reads what is there. -/
theorem moveReadRecord_of_read (h : L.read duplicatesFile pos = some r) :
    moveReadRecord L duplicatesFile true pos sir = (r, true) := by
  simp only [moveReadRecord, h]

/-- A read gives a record of the file or leaves the record as it is. -/
theorem moveReadRecord_mem {good : Bool} (h : sir ∈ duplicatesFile) :
    (moveReadRecord L duplicatesFile good pos sir).1 ∈ duplicatesFile := by
  unfold moveReadRecord
  split
  · next hread => exact Layout.mem_of_read hread
  · exact h

/-- The walk along a chain that ends, with what it has found before. -/
theorem getAllRaw_loop {d : List ρ} (h : DupChain L d (toRecord sir).dupPos chain)
    (records : List Int) :
    LoopReturns (fun _ => getAllRawBody L d) (sir, true, records)
      (records ++ chain.map fun r => (toRecord r).rawPos) := by
  induction chain generalizing sir records with
  | nil =>
    refine .done (.of_eq fun _ => ?_)
    have : (toRecord sir).dupPos = -1 := by simpa [DupChain] using h
    simp [getAllRawBody, this]
  | cons r chain ih =>
    obtain ⟨hr, h⟩ := Path.cons_iff.1 h
    refine .step (.of_eq fun _ => ?_) (t := (r, true, records ++ [(toRecord r).rawPos])) ?_
    · simp only [getAllRawBody, if_pos (Layout.ne_neg_one_of_read hr), moveReadRecord_of_read hr]
    · simpa using ih h (records ++ [(toRecord r).rawPos])

/-- Following a finite chain comes back with the record's own position and those of the chain, in
the order of the chain. -/
theorem getAllRaw_returns {d : List ρ} {first : Int} {rest : List Int}
    (h : HasPositions L d sir first rest) (records : List Int) :
    Returns (getAllRawCurrentRecords L d · sir records) (records ++ first :: rest) := by
  obtain ⟨rfl, chain, h, rfl⟩ := h
  unfold getAllRawCurrentRecords
  simpa using (getAllRaw_loop h (records ++ [(toRecord sir).rawPos])).returns

/-- A failed stream gives no record, so the walk goes on for ever where it is. -/
theorem getAllRaw_failed {d : List ρ} (hne : (toRecord sir).dupPos ≠ -1) {fuel : Nat}
    {records : List Int} : loop (getAllRawBody L d) fuel (sir, false, records) = none := by
  induction fuel generalizing records with
  | zero => rfl
  | succ fuel ih =>
    rw [loop, getAllRawBody, if_pos hne]
    exact ih

/-- Only a chain that ends can be followed to its end. -/
theorem exists_dupChain_of_loop {d : List ρ} : ∀ {fuel : Nat} {sir : ρ} {records res : List Int},
    loop (getAllRawBody L d) fuel (sir, true, records) = some res →
    ∃ chain, DupChain L d (toRecord sir).dupPos chain
  | 0, _, _, _, h => nomatch h
  | fuel + 1, sir, records, res, h => by
    by_cases hend : (toRecord sir).dupPos = -1
    · exact ⟨[], Path.nil_iff.2 hend⟩
    rw [loop, getAllRawBody, if_pos hend] at h
    cases hread : L.read d (toRecord sir).dupPos with
    | none =>
      simp only [moveReadRecord, hread] at h
      rw [getAllRaw_failed hend] at h
      cases h
    | some r =>
      simp only [moveReadRecord_of_read hread] at h
      obtain ⟨chain, hchain⟩ := exists_dupChain_of_loop h
      exact ⟨r :: chain, .cons hread hchain⟩

/-- A chain stays what it is when the file grows. -/
theorem DupChain.append {d : List ρ} (h : DupChain L d pos chain) (d' : List ρ) :
    DupChain L (d ++ d') pos chain :=
  Path.congr h fun _ _ _ hr => Layout.read_append hr

/-- A chain stays when records are appended. -/
theorem HasPositions.append {d : List ρ} {first : Int} {rest : List Int}
    (h : HasPositions L d sir first rest) (d' : List ρ) : HasPositions L (d ++ d') sir first rest := by
  obtain ⟨h1, chain, h2, h3⟩ := h
  exact ⟨h1, chain, h2.append d', h3⟩

/-- A record with a new duplicate in front of its chain. -/
theorem HasPositions.insertDuplicate {d : List ρ} {first : Int} {rest : List Int}
    (h : HasPositions L d sir first rest) (dup : ρ)
    (hdup : (toRecord dup).dupPos = (toRecord sir).dupPos) :
    HasPositions L (d ++ [dup]) (setDupPos sir (L.endPos d)) first ((toRecord dup).rawPos :: rest) := by
  obtain ⟨h1, chain, h2, rfl⟩ := h
  refine ⟨by rw [rawPos_setDupPos, h1], dup :: chain, ?_, rfl⟩
  rw [dupPos_setDupPos]
  exact .cons Layout.read_endPos_append (hdup ▸ h2.append [dup])

/-! ## Disjoint chains -/

variable {d : List ρ} {starts s1 s2 : List Int} {p q o : Int}

/-- The chain of a record without duplicates has no records. -/
theorem not_onDupChain_end : ¬ OnDupChain L d endOfFile q := fun h => by
  obtain ⟨_, hread⟩ := h.exists_read_start
  exact absurd rfl (Layout.ne_neg_one_of_read hread)

/-- A chain that ends gets no records when the file grows. -/
theorem DupChain.onDupChain_append (h : DupChain L d p chain) (d' : List ρ)
    (ho : OnDupChain L (d ++ d') p o) : OnDupChain L d p o :=
  Path.visits_congr h Layout.read_neg_one (fun _ _ _ => Layout.read_append) ho

/-- The order of the chains plays no part. -/
theorem disjointChains_middle : DisjointChains L d (s1 ++ p :: s2) ↔
    (∀ q ∈ s1 ++ s2, ∀ o, OnDupChain L d p o → ¬ OnDupChain L d q o) ∧
      DisjointChains L d (s1 ++ s2) :=
  (List.pairwise_middle fun h o ho ho' => h o ho' ho).trans List.pairwise_cons

/-- Disjoint chains that end stay disjoint when the file grows. -/
theorem DisjointChains.append (h : DisjointChains L d starts)
    (hends : ∀ p ∈ starts, ∃ chain, DupChain L d p chain) (d' : List ρ) :
    DisjointChains L (d ++ d') starts := by
  refine List.Pairwise.imp_of_mem (fun hp hq hdisjoint o ho ho' => ?_) h
  obtain ⟨_, hchain⟩ := hends _ hp
  obtain ⟨_, hchain'⟩ := hends _ hq
  exact hdisjoint o (hchain.onDupChain_append d' ho) (hchain'.onDupChain_append d' ho')

/-- A record without duplicates among the others. -/
theorem DisjointChains.insert_end {s t : List Int} (h : DisjointChains L d (s ++ t)) :
    DisjointChains L d (s ++ endOfFile :: t) :=
  disjointChains_middle.2 ⟨fun _ _ _ ho => absurd ho not_onDupChain_end, h⟩

/-- A new record in front of one of the chains. -/
theorem DisjointChains.insertDuplicate (h : DisjointChains L d (s1 ++ p :: s2))
    (hends : ∀ q ∈ s1 ++ p :: s2, ∃ chain, DupChain L d q chain) (dup : ρ)
    (hdup : (toRecord dup).dupPos = p) :
    DisjointChains L (d ++ [dup]) (s1 ++ L.endPos d :: s2) := by
  obtain ⟨hdisjoint, hrest⟩ := disjointChains_middle.1 h
  have hmem : ∀ q ∈ s1 ++ s2, q ∈ s1 ++ p :: s2 := fun q hq => by
    rw [List.mem_append, List.mem_cons]
    exact (List.mem_append.1 hq).imp_right .inr
  refine disjointChains_middle.2 ⟨fun q hq o ho ho' => ?_,
    hrest.append (fun q hq => hends q (hmem q hq)) [dup]⟩
  obtain ⟨_, hchain⟩ := hends q (hmem q hq)
  have hold := hchain.onDupChain_append [dup] ho'
  rcases (Visits.iff_of_read Layout.read_endPos_append).1 ho with rfl | hnext
  · -- the other chains have no record where the new one goes
    obtain ⟨_, hread⟩ := hold.exists_read
    rw [Layout.read_endPos] at hread
    cases hread
  · obtain ⟨_, hp⟩ := hends p (by simp)
    have hnext : OnDupChain L (d ++ [dup]) p o := by rwa [← hdup]
    exact hdisjoint q hq o (hp.onDupChain_append [dup] hnext) hold

end

end Rdbms
