import Rdbms.Sequential.Model

/-!
# Loading the sequential index

`bulk_insert` sorts the pairs and writes one record for each key into an index file that has only a
header; on any other index it does nothing. Equal keys go to the duplicates file, with no look at
`PK`.
-/

namespace Rdbms

namespace SequentialIndex
variable {κ : Type} [KeyType κ]

/-- The variables of the loop of `bulk_insert`. Its stream stays good: it writes at the offsets of the
first record and of records behind it. -/
structure BulkState (κ : Type) where
  si : SequentialIndex κ
  sirPrev : SequentialIndexRecord κ
  sirCur : SequentialIndexRecord κ

/-- The start of each round of `bulk_insert`. -/
def bulkRecord (sirCur : SequentialIndexRecord κ) (record : κ × Int) : SequentialIndexRecord κ :=
  { sirCur with data := record.1, rawPos := record.2, dupPos := endOfFile }

/-- The round of `bulk_insert` for the first pair. -/
def bulkFirst (si : SequentialIndex κ) (record : κ × Int) : BulkState κ :=
  let sirCur := ((bulkRecord default record).setCurrent sequentialHeaderSize .indexFile).setNext
    endOfFile .indexFile
  ⟨(si.moveWriteRecord .index sirCur.currentPos sirCur).1, sirCur, sirCur⟩

/-- A round of `bulk_insert` for a later pair. `insertDuplicate` takes both records by reference. -/
def bulkNext (s : BulkState κ) (record : κ × Int) : BulkState κ :=
  let sirCur := bulkRecord s.sirCur record
  if sirCur.data = s.sirPrev.data then
    ⟨s.si.insertDuplicate .index s.sirPrev sirCur,
      s.sirPrev.setDupPos (duplicatesLayout.endPos s.si.duplicatesFile),
      sirCur.setDupPos s.sirPrev.dupPos⟩
  else
    let sirCur := (sirCur.setCurrent (s.sirPrev.currentPos + sequentialIndexSize)
      .indexFile).setNext endOfFile .indexFile
    let sirPrev := s.sirPrev.setNext sirCur.currentPos sirCur.currentFile
    let si := (s.si.moveWriteRecord .index sirPrev.currentPos sirPrev).1
    ⟨(si.moveWriteRecord .index sirCur.currentPos sirCur).1, sirCur, sirCur⟩

/-- The loop of `bulk_insert`. -/
def bulkLoad (si : SequentialIndex κ) : List (κ × Int) → SequentialIndex κ
  | [] => si
  | record :: records => (records.foldl bulkNext (si.bulkFirst record)).si

/-- `bulk_insert`; `sort` is `std::sort` with the comparison by key. -/
def bulkInsert (si : SequentialIndex κ) (sort : List (κ × Int) → List (κ × Int))
    (records : List (κ × Int)) : Outcome (SequentialIndex κ) (List Int × List Bool) :=
  if records = [] then (.ok ([], []), si)
  else
    let recordCopy := sort records
    let inserted := List.replicate records.length false
    if si.indexFile = [] then
      (.ok (recordCopy.map (·.2), inserted),
        (si.writeHeader .index ⟨sequentialHeaderSize, .indexFile⟩).bulkLoad recordCopy)
    else (.ok ([], inserted), si)

end SequentialIndex

end Rdbms
