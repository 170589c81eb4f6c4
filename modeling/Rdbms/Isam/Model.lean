import Rdbms.Index.Basic

/-!
# The ISAM index

`ISAM` keeps three files: the index pages, written once by `build`, the data pages, and the
duplicates. A leaf of the three-level index has the offsets of the first pages of data page chains;
new pages go to the end of the file and are linked into a chain. This module is the program: its
functions under their names, with the three files open.

A data page object reserves memory for three records and does not set it. What the memory holds is
written to the file with the page and compared with keys later, so whatever makes a page takes the
memory as an argument (`Slots`). As in the AVL index a read outside of a file has no result.
-/

namespace Rdbms

/-- `ISAMRecord`. -/
structure ISAMRecord (κ : Type) where
  key : κ
  pos : Int := -1
  dupPos : Int := -1
deriving DecidableEq

/-- The duplicates file, of `sizeof(ISAMRecord<KeyType>)` bytes a record. -/
def isamDuplicatesLayout : Layout := ⟨0, 40, by decide⟩

instance {κ : Type} : IndexRecord (ISAMRecord κ) κ where
  toRecord r := ⟨r.key, r.pos, r.dupPos⟩
  setDupPos r p := { r with dupPos := p }
  dupPos_setDupPos _ _ := rfl
  rawPos_setDupPos _ _ := rfl
  data_setDupPos _ _ := rfl

instance {κ : Type} [IntCast κ] : Inhabited (ISAMRecord κ) := ⟨{ key := ((-1 : Int) : κ) }⟩

/-! ## Data pages -/

/-- The memory for the records of a data page. -/
def Slots (κ : Type) : Type := { records : List (ISAMRecord κ) // records.length = 3 }

/-- Memory with three new records. -/
instance {κ : Type} [IntCast κ] : Inhabited (Slots κ) := ⟨⟨List.replicate 3 default, rfl⟩⟩

/-- `DataPage`. -/
structure DataPage (κ : Type) where
  records : Slots κ
  next : Int
  count : Nat

namespace DataPage
variable {κ : Type}

/-- `DataPage::getCapacity`. -/
def getCapacity : Nat := 3

/-- `DataPage::DataPage`, in the memory `memory`. -/
def new (memory : Slots κ) : DataPage κ := ⟨memory, -1, 0⟩

/-- `isFull`. -/
def isFull (page : DataPage κ) : Bool := page.count = getCapacity

/-- `isEmpty`. -/
def isEmpty (page : DataPage κ) : Bool := page.count = 0

/-- `setNext`. -/
def setNext (page : DataPage κ) (n : Int) : DataPage κ := { page with next := n }

/-- The records below `count`, which the loops over a page visit. -/
def live (page : DataPage κ) : List (ISAMRecord κ) := page.records.1.take page.count

/-- `setRecord`: it counts one record more, also when it writes over one. -/
def setRecord (page : DataPage κ) (record : ISAMRecord κ) (pos : Nat) : DataPage κ :=
  { page with
    records := ⟨page.records.1.set pos record, by rw [List.length_set, page.records.2]⟩
    count := page.count + 1 }

variable [IntCast κ]

/-- `getRecord`. -/
def getRecord (page : DataPage κ) (pos : Nat) : ISAMRecord κ := page.records.1.getD pos default

/-- `getKey`. -/
def getKey (page : DataPage κ) (pos : Nat) : κ := (page.getRecord pos).key

/-- `last`. -/
def last (page : DataPage κ) : ISAMRecord κ := page.getRecord (page.count - 1)

/-- `clearRecord`. -/
def clearRecord (page : DataPage κ) (pos : Nat) : DataPage κ :=
  { page.setRecord { key := ((-1 : Int) : κ) } pos with count := page.count - 1 }

variable [LinearOrder κ]

/-- The `while` of `insertRecord`, from `j` down. The first key it looks at is behind the last
record. -/
def shiftRecords (page : DataPage κ) (record : ISAMRecord κ) : Nat → DataPage κ
  | 0 => page.setRecord record 0
  | j + 1 =>
    if record.key < page.getKey (j + 1) then
      let page := page.setRecord (page.getRecord j) (j + 1)
      shiftRecords { page with count := page.count - 1 } record j
    else page.setRecord record (j + 1)

/-- `insertRecord`. -/
def insertRecord (page : DataPage κ) (record : ISAMRecord κ) : Except Exn (DataPage κ) :=
  if page.isFull then .error (.runtimeError "Cannot insert Record because page is full")
  else if page.count = 0 then .ok (page.setRecord record 0)
  else .ok (page.shiftRecords record page.count)

/-- The `while` of `splitAndInsert`. -/
def splitIndex (page : DataPage κ) (record : ISAMRecord κ) : Nat → Nat
  | 0 => 0
  | index + 1 =>
    if record.key < page.getKey (index + 1) then splitIndex page record index else index + 1

/-- The `for` of `splitAndInsert`: the upper records go to the new page. -/
def moveUpper (page newPage : DataPage κ) : DataPage κ × DataPage κ :=
  let half := getCapacity / 2
  (List.range' half (getCapacity - half)).foldl (fun (page, newPage) i =>
    (page.clearRecord i, newPage.setRecord (page.getRecord i) (i - half))) (page, newPage)

/-- `splitAndInsert`, up to the writing of the new page: the page and the new page. -/
def splitAndInsert (page : DataPage κ) (record : ISAMRecord κ) (memory : Slots κ) :
    Except Exn (DataPage κ × DataPage κ) :=
  let index := page.splitIndex record (page.count - 1)
  let newPage := (new memory).setNext page.next
  let (page, newPage) := page.moveUpper newPage
  if index < getCapacity / 2 then (page.insertRecord record).map (·, newPage)
  else (newPage.insertRecord record).map (page, ·)

end DataPage

/-- The data page file, of `DataPage::size_of()` bytes a page. -/
def dataPageLayout : Layout := ⟨0, 152, by decide⟩

/-! ## Index pages -/

/-- `IndexPage`. -/
structure IndexPage (κ : Type) where
  keys : List κ
  children : List Int
  isLeaf : Bool
deriving DecidableEq

namespace IndexPage
variable {κ : Type}

/-- `IndexPage::getCapacity`. -/
def getCapacity : Nat := 2

/-- `IndexPage::IndexPage`. All keys and children of a page are set before it is written. -/
def new [IntCast κ] : IndexPage κ :=
  ⟨List.replicate getCapacity ((0 : Int) : κ), List.replicate (getCapacity + 1) 0, false⟩

/-- `setKey`. -/
def setKey (page : IndexPage κ) (key : κ) (pos : Nat) : IndexPage κ :=
  { page with keys := page.keys.set pos key }

/-- `setChild`. -/
def setChild (page : IndexPage κ) (child : Int) (pos : Nat) : IndexPage κ :=
  { page with children := page.children.set pos child }

end IndexPage

/-- The index page file, of `IndexPage::size_of()` bytes a page. -/
def indexPageLayout : Layout := ⟨0, 57, by decide⟩

/-! ## The index -/

/-- The files of an `ISAM` and the offset of its root. -/
structure ISAM (κ : Type) where
  root : Int
  idxFile : List (IndexPage κ)
  dtFile : List (DataPage κ)
  dupFile : List (ISAMRecord κ)

namespace ISAM
variable {κ : Type}

/-- The constructor on a new directory. -/
def create : ISAM κ := ⟨-1, [], [], []⟩

/-- Seek to a data page and read it. -/
def readPage (isam : ISAM κ) (pos : Int) : Option (DataPage κ) := dataPageLayout.read isam.dtFile pos

/-- Seek to a data page and write it. -/
def writePage (isam : ISAM κ) (pos : Int) (page : DataPage κ) : ISAM κ :=
  { isam with dtFile := dataPageLayout.write isam.dtFile pos page }

/-- The end of the data page file. -/
def endPos (isam : ISAM κ) : Int := dataPageLayout.endPos isam.dtFile

/-- `getAllRawCurrentRecords`. -/
def getAllRawCurrentRecords (isam : ISAM κ) (fuel : Nat) (record : ISAMRecord κ)
    (records : List Int) : Option (List Int) :=
  Rdbms.getAllRawCurrentRecords isamDuplicatesLayout isam.dupFile fuel record records

/-- `insertDuplicate`: the record that the page gets, and the index with the longer file. -/
def insertDuplicate (isam : ISAM κ) (rec recDup : ISAMRecord κ) : ISAMRecord κ × ISAM κ :=
  let (dupFile, duplicatePosition) :=
    insertDuplicateFile isamDuplicatesLayout isam.dupFile { recDup with dupPos := rec.dupPos }
  ({ rec with dupPos := duplicatePosition }, { isam with dupFile })

/-- The way down that `_search`, `_insert` and `_range_search` have in common: in every index page
past the keys that satisfy `past`, to a child of a leaf. -/
def descend (isam : ISAM κ) (past : κ → Bool) : Nat → Int → Option Int
  | 0, _ => none
  | fuel + 1, nodePos => do
    let node ← indexPageLayout.read isam.idxFile nodePos
    let child ← node.children[node.keys.findIdx (!past ·)]?
    if node.isLeaf then some child else descend isam past fuel child

/-- The exception of a call on an index that has not been built. -/
def notBuilt : Exn := .runtimeError "No indexed data in ISAM, please build before"

variable [IntCast κ] [LinearOrder κ]

/-! ## Search -/

/-- One round of the `do` of `_search`, at the page at `dataPos`. -/
def searchBody (isam : ISAM κ) (key : κ) (fuel : Nat) (dataPos : Int) :
    Option (Int ⊕ List Int) := do
  let page ← isam.readPage dataPos
  match page.live.find? (·.key = key) with
  | some record => (isam.getAllRawCurrentRecords fuel record []).map .inr
  | none => if page.next ≠ -1 then some (.inl page.next) else some (.inr [])

/-- `search`. -/
def search (isam : ISAM κ) (fuel : Nat) (key : κ) : Option (Except Exn (List Int)) :=
  if isam.root = -1 then some (.error notBuilt)
  else do
    let dataPos ← isam.descend (· ≤ key) fuel isam.root
    (loop (isam.searchBody key fuel) fuel dataPos).map .ok

/-- The `for` of `_range_search` over the records of a page. -/
def rangeRecords (isam : ISAM κ) (beg «end» : κ) (fuel : Nat) :
    κ × List Int → List (ISAMRecord κ) → Option (κ × List Int)
  | s, [] => some s
  | (_, result), record :: records => do
    let key := record.key
    let result ←
      if beg ≤ key ∧ key ≤ «end» then isam.getAllRawCurrentRecords fuel record result
      else some result
    rangeRecords isam beg «end» fuel (key, result) records

/-- One round of the inner `do` of `_range_search`, along a chain. -/
def rangeChainBody (isam : ISAM κ) (beg «end» : κ) (fuel : Nat) :
    Int × κ × List Int → Option (Int × κ × List Int ⊕ κ × List Int)
  | (pos, s) => do
    let page ← isam.readPage pos
    if page.isEmpty then some (.inr s)
    else
      let s ← isam.rangeRecords beg «end» fuel s page.live
      if page.next ≠ -1 then some (.inl (page.next, s)) else some (.inr s)

/-- The offset behind the first pages of the chains. -/
def lastPos : Int := 3 ^ 3 * 152

/-- One round of the outer `do` of `_range_search`, over the chains. -/
def rangeBody (isam : ISAM κ) (beg «end» : κ) (fuel : Nat) :
    Int × κ × List Int → Option (Int × κ × List Int ⊕ List Int)
  | (dataPos, s) => do
    let s ← loop (isam.rangeChainBody beg «end» fuel) fuel (dataPos, s)
    let dataPos := dataPos + 152
    if dataPos < lastPos ∧ s.1 ≤ «end» then some (.inl (dataPos, s)) else some (.inr s.2)

/-- `range_search`. -/
def rangeSearch (isam : ISAM κ) (fuel : Nat) (beg «end» : κ) :
    Option (Except Exn (List Int)) :=
  if isam.root = -1 then some (.error notBuilt)
  else do
    let dataPos ← isam.descend (· < beg) fuel isam.root
    (loop (isam.rangeBody beg «end» fuel) fuel (dataPos, beg, [])).map .ok

/-! ## Insertion -/

/-- The label `CREATE_PAGE` of `_insert`: a page with the record goes to the end of the file and
behind `page`, the page at `prevPos`. -/
def createPage (isam : ISAM κ) (prevPos : Int) (page : DataPage κ) (record : ISAMRecord κ)
    (memory : Slots κ) : ISAM κ :=
  let newPos := isam.endPos
  let isam := isam.writePage newPos ((DataPage.new memory).setRecord record 0)
  isam.writePage prevPos (page.setNext newPos)

/-- Insert the record into a page that has room and write the page. -/
def insertPage (isam : ISAM κ) (pos : Int) (page : DataPage κ) (record : ISAMRecord κ) :
    Outcome (ISAM κ) (List Int) :=
  match page.insertRecord record with
  | .error e => (.error e, isam)
  | .ok page => (.ok [record.pos], isam.writePage pos page)

/-- Split a full page and write both pages. -/
def splitPage (isam : ISAM κ) (pos : Int) (page : DataPage κ) (record : ISAMRecord κ)
    (memory : Slots κ) : Outcome (ISAM κ) (List Int) :=
  match page.splitAndInsert record memory with
  | .error e => (.error e, isam)
  | .ok (page, newPage) =>
    let newPos := isam.endPos
    let isam := isam.writePage newPos newPage
    (.ok [record.pos], isam.writePage pos (page.setNext newPos))

/-- One round of the `do` of `_insert`, at the page at `dataPos`, and what follows the loop. -/
def insertBody (isam : ISAM κ) (record : ISAMRecord κ) (memory : Slots κ) (dataPos : Int) :
    Option (Int ⊕ Outcome (ISAM κ) (List Int)) := do
  let page ← isam.readPage dataPos
  if page.isEmpty then
    some (.inr (.ok [record.pos], isam.createPage dataPos page record memory))
  else if record.key ≤ page.last.key then
    let i := page.live.findIdx (·.key = record.key)
    if i < page.live.length then
      let (rec, isam) := isam.insertDuplicate (page.getRecord i) record
      let page := { page.setRecord rec i with count := page.count }
      some (.inr (.ok [record.pos], isam.writePage dataPos page))
    else if page.isFull then some (.inr (isam.splitPage dataPos page record memory))
    else some (.inr (isam.insertPage dataPos page record))
  else if page.next ≠ -1 then some (.inl page.next)
  else if !page.isFull then some (.inr (isam.insertPage dataPos page record))
  else some (.inr (.ok [record.pos], isam.createPage dataPos page record memory))

/-- `__add`. A call makes at most one new page, in the memory `memory`. -/
def addRecord (isam : ISAM κ) (memory : Slots κ) (fuel : Nat) (record : ISAMRecord κ) :
    Option (Outcome (ISAM κ) (List Int)) :=
  if isam.root = -1 then some (.error notBuilt, isam)
  else do
    let dataPos ← isam.descend (· ≤ record.key) fuel isam.root
    loop (isam.insertBody record memory) fuel dataPos

/-- `add`. -/
def add (isam : ISAM κ) (memory : Slots κ) (fuel : Nat) (key : κ) (rawPos : Int) :
    Option (Outcome (ISAM κ) (List Int)) :=
  isam.addRecord memory fuel { key, pos := rawPos }

/-! ## Loading -/

/-- The files while `build` writes them, and `index`, how many records have been loaded. -/
structure Builder (κ : Type) where
  idxFile : List (IndexPage κ)
  dtFile : List (DataPage κ)
  index : Nat

/-- The innermost loop of `build`: a data page with the next records, and its offset. -/
def buildPage (data : List (ISAMRecord κ)) (memory : Nat → Slots κ) (s : Builder κ) :
    Int × Builder κ :=
  let (page, index) := (List.range DataPage.getCapacity).foldl
    (fun (page, index) l => (page.setRecord (data.getD index default) l, index + 1))
    (DataPage.new (memory s.index), s.index)
  (dataPageLayout.endPos s.dtFile, { s with dtFile := s.dtFile ++ [page], index })

/-- A loop of `build` over the children of an index page, each built by `child`: the page's
offset. -/
def buildNode (data : List (ISAMRecord κ)) (isLeaf : Bool) (child : Builder κ → Int × Builder κ)
    (s : Builder κ) : Int × Builder κ :=
  let (page, s) := (List.range (IndexPage.getCapacity + 1)).foldl (fun (page, s) h =>
    let (pos, s) := child s
    let page := page.setChild pos h
    let page :=
      if h < IndexPage.getCapacity then page.setKey (data.getD s.index default).key h else page
    (page, s)) (IndexPage.new, s)
  (indexPageLayout.endPos s.idxFile, { s with idxFile := s.idxFile ++ [{ page with isLeaf }] })

/-- The three levels of the index over the first records. -/
def buildLevels (data : List (ISAMRecord κ)) (memory : Nat → Slots κ) : Int × Builder κ :=
  buildNode data false (buildNode data false (buildNode data true (buildPage data memory)))
    ⟨[], [], 0⟩

/-- The last loop of `build`: the records from `index` on. -/
def addRest (memory : Nat → Slots κ) (fuel : Nat) :
    ISAM κ → Nat → List (ISAMRecord κ) → Option (Outcome (ISAM κ) Unit)
  | isam, _, [] => some (.ok (), isam)
  | isam, index, record :: data => do
    match ← isam.addRecord (memory index) fuel record with
    | (.error e, isam) => some (.error e, isam)
    | (.ok _, isam) => addRest memory fuel isam (index + 1) data

/-- `max_records`. -/
def maxRecords : Nat := 81

/-- `build`; `sort` is `std::sort` with the comparison by key. -/
def build (isam : ISAM κ) (sort : List (ISAMRecord κ) → List (ISAMRecord κ))
    (memory : Nat → Slots κ) (fuel : Nat) (data : List (ISAMRecord κ)) :
    Option (Outcome (ISAM κ) Unit) :=
  if data.length < maxRecords then
    some (.error (.runtimeError
      "It's necesary have more than 81 in order to create the ISAM"), isam)
  else
    let data := sort data
    let (root, s) := buildLevels data memory
    addRest memory fuel ⟨root, s.idxFile, s.dtFile, []⟩ s.index (data.drop s.index)

/-- `bulk_insert`. -/
def bulkInsert (isam : ISAM κ) (sort : List (ISAMRecord κ) → List (ISAMRecord κ))
    (memory : Nat → Slots κ) (fuel : Nat) (data : List (κ × Int)) :
    Option (Outcome (ISAM κ) (List Int × List Bool)) :=
  (isam.build sort memory fuel (data.map fun p => { key := p.1, pos := p.2 })).map
    fun (res, isam) => (res.map fun _ => ([1], [true]), isam)

end ISAM

end Rdbms
