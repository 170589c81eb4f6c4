import Rdbms.Index.Basic

/-!
# The sequential index

`SequentialIndex` keeps three files: the index file, a header followed by records in physical key
order, the overflow file (`auxFile`), to which insertions append, and the duplicates file. Header
and records are linked into one chain through the first two files by pairs `next_pos`, `next_file`.
This module is the program: its functions under their names, each on the state of the three files.

The byte sizes are those of a key of four bytes: `sizeof(SequentialIndexHeader) = 24` and
`sizeof(SequentialIndexRecord<KEY_TYPE>) = 88`. They matter where the program writes a header over
the overflow file (`writeHeader` on `Stream.aux`) and where it reads the index file at an offset of
the overflow file (`readAcross`).
-/

namespace Rdbms

/-- `file_pos`: which file an offset is in. `unset` is the value-initialised character. -/
inductive FilePos
  | indexFile
  | auxFile
  | dupFile
  | unset
deriving DecidableEq, Repr

/-- The index file: a header, then the records. -/
def indexLayout : Layout := ⟨24, 88, by decide⟩

/-- The overflow file: records only. -/
def auxLayout : Layout := ⟨0, 88, by decide⟩

/-- The duplicates file: records only. -/
def duplicatesLayout : Layout := ⟨0, 88, by decide⟩

/-- `sizeof(SequentialIndexHeader)`. -/
abbrev sequentialHeaderSize : Int := 24

/-- `sizeof(SequentialIndexRecord<KEY_TYPE>)`. -/
abbrev sequentialIndexSize : Int := 88

/-- `SequentialIndexHeader`. -/
structure SequentialIndexHeader where
  nextPos : Int := endOfFile
  nextFile : FilePos := .indexFile
deriving DecidableEq, Repr

/-- `SequentialIndexRecord`. -/
structure SequentialIndexRecord (κ : Type) extends Record κ where
  currentPos : Int := 0
  currentFile : FilePos := .unset
  nextPos : Int := 0
  nextFile : FilePos := .unset
deriving DecidableEq

namespace SequentialIndexRecord
variable {κ : Type}

instance [Inhabited κ] : Inhabited (SequentialIndexRecord κ) := ⟨{ data := default }⟩

/-- `setDupPos`. -/
def setDupPos (r : SequentialIndexRecord κ) (p : Int) : SequentialIndexRecord κ :=
  { r with dupPos := p }

/-- `setCurrent`. -/
def setCurrent (r : SequentialIndexRecord κ) (p : Int) (f : FilePos) :
    SequentialIndexRecord κ :=
  { r with currentPos := p, currentFile := f }

/-- `setNext`. -/
def setNext (r : SequentialIndexRecord κ) (p : Int) (f : FilePos) :
    SequentialIndexRecord κ :=
  { r with nextPos := p, nextFile := f }

instance : IndexRecord (SequentialIndexRecord κ) κ where
  toRecord := toRecord
  setDupPos := setDupPos
  dupPos_setDupPos _ _ := rfl
  rawPos_setDupPos _ _ := rfl
  data_setDupPos _ _ := rfl

end SequentialIndexRecord

/-- The files of a `SequentialIndex` and its `PK` flag. -/
structure SequentialIndex (κ : Type) where
  pk : Bool
  header : SequentialIndexHeader
  /-- The records of the index file. -/
  indexFile : List (SequentialIndexRecord κ)
  auxFile : List (SequentialIndexRecord κ)
  duplicatesFile : List (SequentialIndexRecord κ)
deriving DecidableEq

/-- The file that a stream has been opened on. -/
inductive OpenFile
  | index
  | aux
deriving DecidableEq

/-- What a template argument `FileType &file` stands for: a stream on one of the two files, and
whether no seek and no read on it has failed. -/
structure Stream where
  file : OpenFile
  good : Bool
deriving DecidableEq

/-- A stream that has just been opened on the index file. -/
abbrev Stream.index : Stream := ⟨.index, true⟩

/-- A stream that has just been opened on the overflow file. -/
abbrev Stream.aux : Stream := ⟨.aux, true⟩

/-- The two streams of a walk along the chain. -/
structure Streams where
  indexFile : Stream := .index
  auxFile : Stream := .aux

/-- `status`, where the binary search stopped. -/
inductive Status
  | emptyFile
  | recPrev
  | recCur
  | recNext
deriving DecidableEq, Repr

/-- `BinarySearchResponse`, and the stream as the search leaves it. -/
structure BinarySearchResponse (κ : Type) [Inhabited κ] where
  location : Status := .emptyFile
  header : Bool := false
  sih : SequentialIndexHeader := {}
  sirPrev : SequentialIndexRecord κ := default
  sir : SequentialIndexRecord κ := default
  sirNext : SequentialIndexRecord κ := default
  file : Stream := .index

namespace SequentialIndex
variable {κ : Type} [KeyType κ]

/-- `createFile`, run by the constructor when the directory of the index is new. -/
def createFile (pk : Bool) : SequentialIndex κ := ⟨pk, {}, [], [], []⟩

/-- `getAllRawCurrentRecords` on the duplicates file of the index. -/
def getAllRawCurrentRecords (si : SequentialIndex κ) (fuel : Nat) (sir : SequentialIndexRecord κ)
    (records : List Int) : Option (List Int) :=
  Rdbms.getAllRawCurrentRecords duplicatesLayout si.duplicatesFile fuel sir records

/-! ## Reading and writing -/

/-- `moveReadRecord` on a stream, and the stream after it. -/
def moveReadRecord (si : SequentialIndex κ) (file : Stream) (pos : Int)
    (record : SequentialIndexRecord κ) : SequentialIndexRecord κ × Stream :=
  let (record, good) := match file.file with
    | .index => Rdbms.moveReadRecord indexLayout si.indexFile file.good pos record
    | .aux => Rdbms.moveReadRecord auxLayout si.auxFile file.good pos record
  (record, { file with good })

/-- `moveReadRecord` of the next record of the chain, on the stream that `next_file` asks for. -/
def moveReadNext (si : SequentialIndex κ) (files : Streams) (nextPos : Int) (nextFile : FilePos)
    (record : SequentialIndexRecord κ) : SequentialIndexRecord κ × Streams :=
  if nextFile = .indexFile then
    let (record, indexFile) := si.moveReadRecord files.indexFile nextPos record
    (record, { files with indexFile })
  else
    let (record, auxFile) := si.moveReadRecord files.auxFile nextPos record
    (record, { files with auxFile })

/-- `moveWriteRecord` on a stream, and the stream after it. A seek in front of the file fails. -/
def moveWriteRecord (si : SequentialIndex κ) (file : Stream) (pos : Int)
    (record : SequentialIndexRecord κ) : SequentialIndex κ × Stream :=
  if file.good ∧ 0 ≤ pos then
    match file.file with
    | .index => ({ si with indexFile := indexLayout.write si.indexFile pos record }, file)
    | .aux => ({ si with auxFile := auxLayout.write si.auxFile pos record }, file)
  else (si, { file with good := false })

/-- `readHeader` on a stream of the index file. -/
def readHeader (si : SequentialIndex κ) (file : Stream) (header : SequentialIndexHeader) :
    SequentialIndexHeader :=
  if file.good then si.header else header

/-- The first 24 bytes of a record overwritten by a header: the key field gets the low bytes of
`next_pos`, and the offset in `raw_pos` gets the conversion state of `next_pos`, which is `0`. The
conversion state in `raw_pos`, which gets `next_file` and its padding, is left out: the other
functions only hand it on, and a read between two records (`readAcross`) takes it to be `0`. -/
def overlayHeader (header : SequentialIndexHeader) (record : SequentialIndexRecord κ) :
    SequentialIndexRecord κ :=
  { record with data := KeyType.ofOffset header.nextPos, rawPos := 0 }

/-- `writeHeader`: seek to the beginning of the stream and write. The overflow file has no header,
there it goes over the first record. -/
def writeHeader (si : SequentialIndex κ) (file : Stream) (header : SequentialIndexHeader) :
    SequentialIndex κ :=
  if file.good then
    match file.file with
    | .index => { si with header }
    | .aux => { si with auxFile := si.auxFile.modifyHead (overlayHeader header) }
  else si

/-- `validNumberRecords`: `log2(indexRecords) >= auxRecords`. -/
def validNumberRecords (si : SequentialIndex κ) : Bool :=
  2 ^ si.auxFile.length ≤ si.indexFile.length

/-! ## Binary search -/

/-- The variables of the loop of `binarySearch`. -/
structure BinarySearchState (κ : Type) [Inhabited κ] where
  logicalLeft : Int
  logicalRight : Int
  sih : SequentialIndexHeader := {}
  sirPrev : SequentialIndexRecord κ := default
  sirCur : SequentialIndexRecord κ := default
  sirNext : SequentialIndexRecord κ := default
  file : Stream := .index

/-- The read in front of the middle record: its physical predecessor, or the header when the middle
record says that it is the first one. Also where the stream stands after it. -/
def binarySearchReadPrev (si : SequentialIndex κ) (physicalMid : Int) (s : BinarySearchState κ) :
    BinarySearchState κ × Int :=
  if s.sirCur.currentPos ≠ sequentialHeaderSize then
    let (sirPrev, file) := si.moveReadRecord s.file (physicalMid - sequentialIndexSize) s.sirPrev
    ({ s with sirPrev, file }, physicalMid)
  else ({ s with sih := si.readHeader s.file s.sih }, sequentialHeaderSize)

/-- The read behind the middle record, unless the middle record says that it is the last one. -/
def binarySearchReadNext (si : SequentialIndex κ) (here : Int) (s : BinarySearchState κ) :
    BinarySearchState κ :=
  let physicalLast := indexLayout.endPos si.indexFile
  if s.sirCur.currentPos + sequentialIndexSize ≠ physicalLast then
    let (sirNext, file) := si.moveReadRecord s.file (here + sequentialIndexSize) s.sirNext
    { s with sirNext, file }
  else s

/-- The reads of one round. -/
def binarySearchRead (si : SequentialIndex κ) (logicalMid : Int) (s : BinarySearchState κ) :
    BinarySearchState κ :=
  let physicalMid := sequentialHeaderSize + logicalMid * sequentialIndexSize
  let (sirCur, file) := si.moveReadRecord s.file physicalMid s.sirCur
  let (s, here) := si.binarySearchReadPrev physicalMid { s with sirCur, file }
  si.binarySearchReadNext here s

/-- One round of the loop of `binarySearch`. -/
def binarySearchBody (si : SequentialIndex κ) (data : κ) (s : BinarySearchState κ) :
    Option (BinarySearchState κ ⊕ BinarySearchResponse κ) :=
  let physicalLast := indexLayout.endPos si.indexFile
  if s.logicalLeft ≤ s.logicalRight then
    let logicalMid := (s.logicalLeft + s.logicalRight) / 2
    let s := si.binarySearchRead logicalMid s
    let bsr : BinarySearchResponse κ :=
      { sirPrev := s.sirPrev, sir := s.sirCur, sirNext := s.sirNext, file := s.file }
    if s.sirCur.data = data then
      some (.inr { bsr with location := .recCur })
    else if s.sirCur.currentPos + sequentialIndexSize = physicalLast ∧ s.sirCur.data < data then
      some (.inr { bsr with location := .recNext })
    else if s.sirCur.currentPos = sequentialHeaderSize ∧ data < s.sirCur.data then
      some (.inr { bsr with location := .recPrev, header := true, sih := s.sih })
    else if s.sirPrev.data < data ∧ data < s.sirCur.data then
      some (.inr { bsr with location := .recPrev })
    else if s.sirCur.data < data ∧ data < s.sirNext.data then
      some (.inr { bsr with location := .recNext })
    else if s.sirCur.data < data then
      some (.inl { s with logicalLeft := logicalMid + 1 })
    else
      some (.inl { s with logicalRight := logicalMid - 1 })
  else some (.inr
    { sirPrev := s.sirPrev, sir := s.sirCur, sirNext := s.sirNext, file := s.file })

/-- `binarySearch` on the index file. -/
def binarySearch (si : SequentialIndex κ) (fuel : Nat) (data : κ) :
    Option (BinarySearchResponse κ) :=
  if si.indexFile = [] then some {}
  else
    loop (si.binarySearchBody data) fuel
      { logicalLeft := 0, logicalRight := si.indexFile.length }

/-! ## Insertion -/

/-- `insertAuxFile`: append to the overflow file. The record gets its position. -/
def insertAuxFile (si : SequentialIndex κ) (sir : SequentialIndexRecord κ) :
    SequentialIndex κ × SequentialIndexRecord κ :=
  let sir := sir.setCurrent (auxLayout.endPos si.auxFile) .auxFile
  ({ si with auxFile := si.auxFile ++ [sir] }, sir)

/-- `insertAfterRecord`: link `sir` in behind the header or behind `sir_prev`, which is written
back to `file`. -/
def insertAfterRecord (si : SequentialIndex κ) (file : Stream)
    (sirPrev sir : SequentialIndexRecord κ) (sih : SequentialIndexHeader) (header : Bool) :
    SequentialIndex κ :=
  if header then
    let (si, sir) := si.insertAuxFile (sir.setNext sih.nextPos sih.nextFile)
    si.writeHeader file ⟨sir.currentPos, sir.currentFile⟩
  else
    let (si, sir) := si.insertAuxFile (sir.setNext sirPrev.nextPos sirPrev.nextFile)
    let sirPrev := sirPrev.setNext sir.currentPos sir.currentFile
    (si.moveWriteRecord file sirPrev.currentPos sirPrev).1

/-- `insertDuplicate`: append `sir_dup` to the duplicates file in front of the chain of `sir`, and
write `sir` back to `file`. -/
def insertDuplicate (si : SequentialIndex κ) (file : Stream)
    (sir sirDup : SequentialIndexRecord κ) : SequentialIndex κ :=
  let (duplicatesFile, duplicatePosition) :=
    insertDuplicateFile duplicatesLayout si.duplicatesFile (sirDup.setDupPos sir.dupPos)
  let sir := sir.setDupPos duplicatePosition
  ({ si with duplicatesFile }.moveWriteRecord file sir.currentPos sir).1

/-- `insertDuplicate` behind the primary-key check that precedes each of its calls. -/
def insertDuplicateUnlessPk (si : SequentialIndex κ) (file : Stream)
    (sir sirDup : SequentialIndexRecord κ) : Outcome (SequentialIndex κ) Unit :=
  if si.pk then (.error (.runtimeError "Couldn't add duplicate in PK"), si)
  else (.ok (), si.insertDuplicate file sir sirDup)

/-- One round of the `while` of `insertAux` and what follows it: the walk through the overflow
file with `sir_prev` behind `sir_cur`. -/
def insertAuxBody (si : SequentialIndex κ) (sir : SequentialIndexRecord κ)
    (sih : SequentialIndexHeader) :
    SequentialIndexRecord κ × SequentialIndexRecord κ × Stream →
      Option (SequentialIndexRecord κ × SequentialIndexRecord κ × Stream ⊕
        Outcome (SequentialIndex κ) Unit)
  | (sirPrev, sirCur, auxFile) =>
    if sirCur.nextFile ≠ .indexFile then
      if sirCur.data = sir.data then
        some (.inr (si.insertDuplicateUnlessPk auxFile sirCur sir))
      else if sirPrev.data < sir.data ∧ sir.data < sirCur.data then
        some (.inr (.ok (), si.insertAfterRecord auxFile sirPrev sir sih false))
      else
        some (.inl (sirCur, si.moveReadRecord auxFile sirCur.nextPos sirCur))
    else if sirCur.data = sir.data then
      some (.inr (si.insertDuplicateUnlessPk auxFile sirCur sir))
    else if sirCur.data < sir.data then
      some (.inr (.ok (), si.insertAfterRecord auxFile sirCur sir sih false))
    else
      some (.inr (.ok (), si.insertAfterRecord auxFile sirPrev sir sih false))

/-- `insertAux`: insert into the overflow chain that hangs off the header or off `sir_init`. -/
def insertAux (si : SequentialIndex κ) (fuel : Nat) (indexFile : Stream)
    (sirInit sir : SequentialIndexRecord κ) (bsr : BinarySearchResponse κ) :
    Option (Outcome (SequentialIndex κ) Unit) :=
  let first := if bsr.header then bsr.sih.nextPos else sirInit.nextPos
  let (sirCur, auxFile) := si.moveReadRecord .aux first default
  if bsr.header then
    if sir.data < sirCur.data then
      -- the new header goes to the stream of the overflow file
      some (.ok (), si.insertAfterRecord auxFile sirInit sir bsr.sih true)
    else if sir.data = sirCur.data then
      some (si.insertDuplicateUnlessPk auxFile sirCur sir)
    else if sirCur.nextFile = .indexFile then
      some (.ok (), si.insertAfterRecord auxFile sirCur sir bsr.sih false)
    else
      loop (si.insertAuxBody sir bsr.sih) fuel
        (sirCur, si.moveReadRecord auxFile sirCur.nextPos sirCur)
  else if sirInit.data < sir.data ∧ sir.data < sirCur.data then
    some (.ok (), si.insertAfterRecord indexFile sirInit sir bsr.sih false)
  else
    loop (si.insertAuxBody sir bsr.sih) fuel (sirInit, sirCur, auxFile)

/-- The branch of `add` for an empty index file: the header and the first record behind it. -/
def addFirst (si : SequentialIndex κ) (indexFile : Stream) (sir : SequentialIndexRecord κ) :
    SequentialIndex κ :=
  let sir := (sir.setCurrent sequentialHeaderSize .indexFile).setNext endOfFile .indexFile
  let si := si.writeHeader indexFile ⟨sequentialHeaderSize, .indexFile⟩
  (si.moveWriteRecord indexFile sequentialHeaderSize sir).1

/-- The branches of `add` on what the binary search found. -/
def addAt (si : SequentialIndex κ) (fuel : Nat) (sir : SequentialIndexRecord κ)
    (bsr : BinarySearchResponse κ) : Option (Outcome (SequentialIndex κ) Unit) :=
  let indexFile := bsr.file
  match bsr.location with
  | .emptyFile => some (.ok (), si.addFirst indexFile sir)
  | location =>
    if bsr.header ∧ bsr.sih.nextFile = .indexFile then
      some (.ok (), si.insertAfterRecord indexFile bsr.sirPrev sir bsr.sih true)
    else if bsr.header then
      si.insertAux fuel indexFile bsr.sirPrev sir bsr
    else if location = .recPrev ∧ bsr.sirPrev.nextFile = .indexFile then
      some (.ok (), si.insertAfterRecord indexFile bsr.sirPrev sir bsr.sih false)
    else if location = .recPrev then
      si.insertAux fuel indexFile bsr.sirPrev sir bsr
    else if location = .recCur then
      some (si.insertDuplicateUnlessPk indexFile bsr.sir sir)
    else if bsr.sir.nextFile = .indexFile then
      some (.ok (), si.insertAfterRecord indexFile bsr.sir sir bsr.sih false)
    else
      si.insertAux fuel indexFile bsr.sir sir bsr

/-! ## Rebuild -/

/-- One round of the inner loop of `rebuild`: copy a duplicate, linked to its physical
successor. -/
def rebuildDuplicatesBody (si : SequentialIndex κ) :
    SequentialIndexRecord κ × Bool × List (SequentialIndexRecord κ) →
      Option (SequentialIndexRecord κ × Bool × List (SequentialIndexRecord κ) ⊕
        SequentialIndexRecord κ × Bool × List (SequentialIndexRecord κ))
  | (sirDup, good, newDuplicatesFile) =>
    let currentDupPos := duplicatesLayout.endPos newDuplicatesFile
    let nextDup := sirDup.dupPos
    let sirDup := (sirDup.setCurrent currentDupPos .dupFile).setDupPos
      (if nextDup = endOfFile then endOfFile else currentDupPos + sequentialIndexSize)
    let newDuplicatesFile := newDuplicatesFile ++ [sirDup]
    if nextDup = endOfFile then some (.inr (sirDup, good, newDuplicatesFile))
    else
      let (sirDup, good) :=
        Rdbms.moveReadRecord duplicatesLayout si.duplicatesFile good nextDup sirDup
      some (.inl (sirDup, good, newDuplicatesFile))

/-- The variables of the outer loop of `rebuild`. -/
structure RebuildState (κ : Type) [Inhabited κ] where
  sir : SequentialIndexRecord κ
  sirDup : SequentialIndexRecord κ := default
  files : Streams := {}
  /-- The state of the stream of the duplicates file. -/
  good : Bool := true
  newIndexFile : List (SequentialIndexRecord κ) := []
  newDuplicatesFile : List (SequentialIndexRecord κ) := []

/-- The duplicates of one record: its new `dup_pos` and the new duplicates file. -/
def rebuildDuplicates (si : SequentialIndex κ) (fuel : Nat) (s : RebuildState κ) :
    Option (RebuildState κ) :=
  if s.sir.dupPos ≠ endOfFile then
    let sir := s.sir.setDupPos (duplicatesLayout.endPos s.newDuplicatesFile)
    let (sirDup, good) :=
      Rdbms.moveReadRecord duplicatesLayout si.duplicatesFile s.good s.sir.dupPos s.sirDup
    (loop si.rebuildDuplicatesBody fuel (sirDup, good, s.newDuplicatesFile)).map
      fun (sirDup, good, newDuplicatesFile) => { s with sir, sirDup, good, newDuplicatesFile }
  else some s

/-- The record itself: copied, linked to its physical successor, and the next one along the chain
read. -/
def rebuildRecord (si : SequentialIndex κ) (s : RebuildState κ) : RebuildState κ ⊕ RebuildState κ :=
  let currentPos := indexLayout.endPos s.newIndexFile
  let nextMove := s.sir.nextPos
  let nextFile := s.sir.nextFile
  let sir := (s.sir.setCurrent currentPos .indexFile).setNext
    (if nextMove = endOfFile then endOfFile else currentPos + sequentialIndexSize) .indexFile
  let s := { s with sir, newIndexFile := s.newIndexFile ++ [sir] }
  if nextMove = endOfFile then .inr s
  else
    let (sir, files) := si.moveReadNext s.files nextMove nextFile s.sir
    .inl { s with sir, files }

/-- One round of the outer loop of `rebuild`. -/
def rebuildBody (si : SequentialIndex κ) (fuel : Nat) (s : RebuildState κ) :
    Option (RebuildState κ ⊕ RebuildState κ) :=
  (si.rebuildDuplicates fuel s).map si.rebuildRecord

/-- `rebuild`: copy the chain into new files and put them in the place of the old ones. -/
def rebuild (si : SequentialIndex κ) (fuel : Nat) : Option (SequentialIndex κ) :=
  if si.header.nextPos ≠ endOfFile then
    let (sir, files) := si.moveReadNext {} si.header.nextPos si.header.nextFile default
    (loop (si.rebuildBody fuel) fuel { sir, files }).map fun s =>
      ⟨si.pk, ⟨sequentialHeaderSize, .indexFile⟩, s.newIndexFile, [], s.newDuplicatesFile⟩
  else some ⟨si.pk, ⟨endOfFile, .indexFile⟩, [], [], []⟩

/-- The end of `add`: an exception is thrown again with another text, and an overflow file that has
grown too long makes it rebuild the files. -/
def addEnd (fuel : Nat) (rebuild : Bool) (records : List Int) :
    Outcome (SequentialIndex κ) Unit → Option (Outcome (SequentialIndex κ) (List Int))
  | (.error _, si) => some (.error (.runtimeError "Couldn't add"), si)
  | (.ok (), si) =>
    if rebuild ∧ !si.validNumberRecords then (si.rebuild fuel).map (.ok records, ·)
    else some (.ok records, si)

/-- `add(data, raw_pos, rebuild)`, with the public `add(data, raw_pos)` as the case `rebuild`. The
response has the position twice for the first record. -/
def add (si : SequentialIndex κ) (fuel : Nat) (data : κ) (rawPos : Int)
    (rebuild : Bool := true) : Option (Outcome (SequentialIndex κ) (List Int)) := do
  let sir : SequentialIndexRecord κ := { data, rawPos, dupPos := endOfFile }
  let bsr ← si.binarySearch fuel data
  let res ← si.addAt fuel sir bsr
  addEnd fuel rebuild (if bsr.location = .emptyFile then [rawPos, rawPos] else [rawPos]) res

/-! ## Queries -/

/-- One round of the `while` of `searchAuxFile`. -/
def searchAuxBody (si : SequentialIndex κ) (fuel : Nat) (data : κ) (records : List Int) :
    SequentialIndexRecord κ × Stream →
      Option (SequentialIndexRecord κ × Stream ⊕ List Int × SequentialIndexRecord κ)
  | (sir, auxFile) =>
    if sir.data ≤ data then
      if sir.data = data then
        (si.getAllRawCurrentRecords fuel sir records).map fun records => .inr (records, sir)
      else if sir.nextFile = .indexFile ∨ sir.nextPos = endOfFile then some (.inr (records, sir))
      else some (.inl (si.moveReadRecord auxFile sir.nextPos sir))
    else some (.inr (records, sir))

/-- `searchAuxFile`: the record of the overflow chain where the search for `data` stops, and the
positions if it is the record of `data`. -/
def searchAuxFile (si : SequentialIndex κ) (fuel : Nat) (data : κ) (bir : BinarySearchResponse κ)
    (records : List Int) : Option (List Int × SequentialIndexRecord κ) :=
  if bir.header then
    if bir.sih.nextFile = .indexFile then some (records, bir.sir)
    else walk bir.sih.nextPos bir.sir
  else if bir.location = .recPrev then
    if bir.sirPrev.nextFile = .indexFile then some (records, bir.sirPrev)
    else walk bir.sirPrev.nextPos bir.sirPrev
  else
    if bir.sir.nextFile = .indexFile then some (records, bir.sir)
    else walk bir.sir.nextPos bir.sir
where
  walk (first : Int) (sir : SequentialIndexRecord κ) :=
    loop (si.searchAuxBody fuel data records) fuel (si.moveReadRecord .aux first sir)

/-- `search`. -/
def search (si : SequentialIndex κ) (fuel : Nat) (data : κ) : Option (List Int) := do
  let bsr ← si.binarySearch fuel data
  match bsr.location with
  | .emptyFile => some []
  | .recCur => si.getAllRawCurrentRecords fuel bsr.sir []
  | _ => (si.searchAuxFile fuel data bsr []).map (·.1)

/-- One round of the final `while` of `range_search`. -/
def rangeSearchBody (si : SequentialIndex κ) (fuel : Nat) (last : κ) :
    (SequentialIndexRecord κ × Streams) × List Int →
      Option ((SequentialIndexRecord κ × Streams) × List Int ⊕ List Int)
  | ((sir, files), records) =>
    if sir.data ≤ last then
      (si.getAllRawCurrentRecords fuel sir records).map fun records =>
        if sir.nextPos = endOfFile then .inr records
        else .inl (si.moveReadNext files sir.nextPos sir.nextFile sir, records)
    else some (.inr records)

/-- The first record and positions of a range search: the record of `begin`, or the one where the
search for it in the overflow chain stops. -/
def rangeSearchStart (si : SequentialIndex κ) (fuel : Nat) (first : κ)
    (bsr : BinarySearchResponse κ) : Option (List Int × SequentialIndexRecord κ) :=
  if bsr.location = .recCur then
    (si.getAllRawCurrentRecords fuel bsr.sir []).map (·, bsr.sir)
  else si.searchAuxFile fuel first bsr []

/-- The rest of `range_search`: move on from a record that is not above `begin`, then walk along the
chain. -/
def rangeSearchFrom (si : SequentialIndex κ) (fuel : Nat) (indexFile : Stream) (first last : κ) :
    List Int × SequentialIndexRecord κ → Option (List Int)
  | (records, sir) =>
    if sir.data ≤ first then
      -- move to the next record
      if sir.nextFile = .indexFile then
        if sir.nextPos = endOfFile then some records
        else
          let (sir, indexFile) := si.moveReadRecord indexFile sir.nextPos sir
          loop (si.rangeSearchBody fuel last) fuel ((sir, { indexFile }), records)
      else
        let (sir, _) := si.moveReadRecord .aux sir.nextPos sir
        loop (si.rangeSearchBody fuel last) fuel ((sir, { indexFile }), records)
    else loop (si.rangeSearchBody fuel last) fuel ((sir, { indexFile }), records)

/-- `range_search(begin, end)`. -/
def rangeSearch (si : SequentialIndex κ) (fuel : Nat) (first last : κ) : Option (List Int) :=
  if last < first then some []
  else do
    let bsr ← si.binarySearch fuel first
    if bsr.location = .emptyFile then some []
    else
      let start ← si.rangeSearchStart fuel first bsr
      si.rangeSearchFrom fuel bsr.file first last start

end SequentialIndex

end Rdbms
