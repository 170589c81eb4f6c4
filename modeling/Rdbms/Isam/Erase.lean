import Rdbms.Isam.Page

/-!
# Removal

`ISAM::remove` and what it calls. The loop of `_remove` passes the pages whose last key is below the
key. It never advances `prev_pos`, so the page that a page without records is unlinked from is the
first one of the chain.
-/

namespace Rdbms

namespace DataPage
variable {κ : Type} [IntCast κ] [LinearOrder κ]

omit [LinearOrder κ] in
/-- The `for` of `DataPage::remove`: the records behind `i` move down. -/
def closeGap (page : DataPage κ) (i : Nat) : DataPage κ :=
  (List.range' (i + 1) (page.count - (i + 1))).foldl (fun page j =>
    { page.setRecord (page.getRecord j) (j - 1) with count := page.count }) page

omit [LinearOrder κ] in
/-- `DataPage::remove`. -/
def remove (page : DataPage κ) (i : Nat) : Except Exn (DataPage κ) :=
  if page.count ≤ i then
    .error (.runtimeError ("Cannot index a record in position: " ++ toString i))
  else
    let closed := if i = page.count - 1 then page else page.closeGap i
    .ok { closed.setRecord { key := ((0 : Int) : κ) } (page.count - 1) with count := page.count - 1 }

/-- The `for` of `_remove` over the records of a page, and `deleted_pos`. -/
def removeRecords (key : κ) : Nat → Nat → DataPage κ → Int → Except Exn (DataPage κ × Int)
  | 0, _, page, deletedPos => .ok (page, deletedPos)
  | rounds + 1, i, page, deletedPos =>
    if page.count ≤ i then .ok (page, deletedPos)
    else if page.getKey i = key then
      match page.remove i with
      | .error e => .error e
      | .ok page' => removeRecords key rounds (i + 1) page' (page.getRecord i).pos
    else removeRecords key rounds (i + 1) page deletedPos

end DataPage

namespace ISAM
variable {κ : Type} [IntCast κ] [LinearOrder κ]

omit [LinearOrder κ] in
/-- `merge`: the page with records of the next one. -/
def merge (isam : ISAM κ) (page : DataPage κ) : Option (Outcome (ISAM κ) (DataPage κ)) :=
  if page.next = -1 then some (.ok page, isam)
  else do
    let nextPage ← isam.readPage page.next
    if page.count + nextPage.count ≤ DataPage.getCapacity then
      let merged := (List.range nextPage.count).foldl (fun merged i =>
        merged.setRecord (nextPage.getRecord i) (page.count + i)) page
      some (.ok (merged.setNext nextPage.next), isam)
    else
      match nextPage.remove 0 with
      | .error e => some (.error e, isam)
      | .ok nextPage' =>
        some (.ok (page.setRecord (nextPage.getRecord 0) page.count),
          isam.writePage page.next nextPage')

omit [LinearOrder κ] in
/-- The end of `_remove` for the page at `dataPos`, from which a record has been removed. -/
def writeRemoved (isam : ISAM κ) (prevPos dataPos : Int) (iter : Nat) (prevPage page : DataPage κ)
    (deletedPos : Int) : Option (Outcome (ISAM κ) (List Int)) :=
  if page.isEmpty then
    if iter = 0 then some (.ok [deletedPos], isam.writePage dataPos page)
    else some (.ok [deletedPos], isam.writePage prevPos (prevPage.setNext page.next))
  else if page.count ≤ DataPage.getCapacity / 2 then
    (isam.merge page).map fun
      | (.error e, isam) => (.error e, isam)
      | (.ok page, isam) => (.ok [deletedPos], isam.writePage dataPos page)
  else some (.ok [deletedPos], isam.writePage dataPos page)

/-- One round of the `do` of `_remove`, at the page at `dataPos`. -/
def removeBody (isam : ISAM κ) (key : κ) (prevPos : Int) :
    Int × Nat → Option (Int × Nat ⊕ Outcome (ISAM κ) (List Int))
  | (dataPos, iter) => do
    let page ← isam.readPage dataPos
    let prevPage ← isam.readPage prevPos
    if page.isEmpty then some (.inr (.ok [], isam))
    else if key ≤ page.last.key then
      match page.removeRecords key page.count 0 (-1) with
      | .error e => some (.inr (.error e, isam))
      | .ok (page, deletedPos) =>
        if deletedPos = -1 then some (.inr (.ok [], isam))
        else (isam.writeRemoved prevPos dataPos iter prevPage page deletedPos).map .inr
    else if page.next ≠ -1 then some (.inl (page.next, iter + 1))
    else some (.inr (.ok [], isam))

/-- `remove`. -/
def remove (isam : ISAM κ) (fuel : Nat) (key : κ) : Option (Outcome (ISAM κ) (List Int)) :=
  if isam.root = -1 then some (.error notBuilt, isam)
  else do
    let dataPos ← isam.descend (· ≤ key) fuel isam.root
    loop (isam.removeBody key dataPos) fuel (dataPos, 0)

end ISAM

end Rdbms
