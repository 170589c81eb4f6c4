import Rdbms.Sequential.Model

/-!
# Removal from the sequential index

`erase` takes the record of a key out of the chain, wherever it lives, and says which heap position
it had; `remove` rebuilds the files when `erase` has reported one. Where the record hangs off the
header, in the overflow file, `erase` reads the index file at the offset that the header has for the
overflow file (`readAcross`).
-/

namespace Rdbms

namespace SequentialIndex
variable {κ : Type} [KeyType κ]

/-- One round of the `while` that looks for the last record of an overflow chain. -/
def lastAuxBody (si : SequentialIndex κ) :
    SequentialIndexRecord κ × Stream →
      Option (SequentialIndexRecord κ × Stream ⊕ SequentialIndexRecord κ × Stream)
  | (sirCur, auxFile) =>
    if sirCur.nextFile ≠ .indexFile then
      some (.inl (si.moveReadRecord auxFile sirCur.nextPos sirCur))
    else some (.inr (sirCur, auxFile))

/-- The last record of the overflow chain that starts at `first`, and the stream it was read
from. -/
def lastAux (si : SequentialIndex κ) (fuel : Nat) (first : Int) :
    Option (SequentialIndexRecord κ × Stream) :=
  loop si.lastAuxBody fuel (si.moveReadRecord .aux first default)

/-- The branch of `erase` for a record of the index file. The first record keeps its own link when
the last overflow record of the header is relinked. -/
def eraseCur (si : SequentialIndex κ) (fuel : Nat) (bsr : BinarySearchResponse κ) :
    Option (List Int × SequentialIndex κ) :=
  let indexFile := bsr.file
  let sir := bsr.sir.setNext endOfFile .indexFile
  if bsr.sir.currentPos = sequentialHeaderSize then
    let sih := si.readHeader indexFile {}
    if sih.nextFile = .indexFile then
      let si := si.writeHeader indexFile ⟨bsr.sir.nextPos, bsr.sir.nextFile⟩
      some ([bsr.sir.rawPos], (si.moveWriteRecord indexFile sir.currentPos sir).1)
    else
      (si.lastAux fuel sih.nextPos).map fun (sirCur, auxFile) =>
        ([bsr.sir.rawPos], (si.moveWriteRecord auxFile sirCur.currentPos
          (sirCur.setNext bsr.sir.nextPos bsr.sir.nextFile)).1)
  else if bsr.sirPrev.nextFile = .indexFile then
    let (si, indexFile) := si.moveWriteRecord indexFile bsr.sirPrev.currentPos
      (bsr.sirPrev.setNext bsr.sir.nextPos bsr.sir.nextFile)
    some ([bsr.sir.rawPos], (si.moveWriteRecord indexFile sir.currentPos sir).1)
  else
    (si.lastAux fuel bsr.sirPrev.nextPos).map fun (sirCur, auxFile) =>
      let si := (si.moveWriteRecord auxFile sirCur.currentPos
        (sirCur.setNext bsr.sir.nextPos bsr.sir.nextFile)).1
      ([bsr.sir.rawPos], (si.moveWriteRecord indexFile sir.currentPos sir).1)

/-- One round of the `while` that follows an overflow chain with `sir_prev` behind `sir_cur`. -/
def eraseAuxBody (si : SequentialIndex κ) (indexFile : Stream) (data : κ) :
    SequentialIndexRecord κ × SequentialIndexRecord κ × Stream →
      Option (SequentialIndexRecord κ × SequentialIndexRecord κ × Stream ⊕
        List Int × SequentialIndex κ)
  | (sirPrev, sirCur, auxFile) =>
    if sirCur.data = data then
      let prev := sirPrev.setNext sirCur.nextPos sirCur.nextFile
      let cur := sirCur.setNext endOfFile .indexFile
      if sirPrev.currentFile = .indexFile then
        let (si, _) := si.moveWriteRecord indexFile sirPrev.currentPos prev
        some (.inr ([sirCur.rawPos], (si.moveWriteRecord auxFile sirCur.currentPos cur).1))
      else
        let (si, auxFile) := si.moveWriteRecord auxFile sirPrev.currentPos prev
        some (.inr ([sirCur.rawPos], (si.moveWriteRecord auxFile sirCur.currentPos cur).1))
    else if sirCur.nextFile = .indexFile ∨ sirCur.nextPos = endOfFile ∨ data < sirCur.data then
      some (.inr ([], si))
    else some (.inl (sirCur, si.moveReadRecord auxFile sirCur.nextPos sirCur))

/-- What stands in the index file at an offset of the overflow file, that is 24 bytes in front of
its record `j`: a link, the header's or that of the record `j - 1`, and the record `j`, if the file
goes on that far. -/
def readAcross (si : SequentialIndex κ) (pos : Int) :
    Option (SequentialIndexHeader × Option (SequentialIndexRecord κ)) :=
  (auxLayout.slot? pos).bind fun j =>
    let link := if j = 0 then some si.header
      else (si.indexFile[j - 1]?).map fun r => ⟨r.nextPos, r.nextFile⟩
    link.map (·, si.indexFile[j]?)

/-- The record that `moveReadRecord` makes of it: a read that reaches the end of the file leaves
the rest of the record as it was. The field `dup_pos` would hold the bytes of a key, and
`current_pos` holds the conversion state of the record's `raw_pos`: `0`, unless a header has been
written over the record. -/
def acrossRecord :
    Option (SequentialIndexHeader × Option (SequentialIndexRecord κ)) → SequentialIndexRecord κ
  | none => default
  | some (link, none) => { (default : SequentialIndexRecord κ) with
      data := KeyType.ofOffset link.nextPos, rawPos := 0 }
  | some (link, some sir) =>
    { data := KeyType.ofOffset link.nextPos, nextPos := sir.currentPos, nextFile := sir.currentFile }

/-- The record written back to its `current_pos`, which is `0`: its first 24 bytes go over the
header and the rest over the first record of the index file. A stream that has reached the end of
the file writes nothing. -/
def writeAcross (si : SequentialIndex κ) :
    Option (SequentialIndexHeader × Option (SequentialIndexRecord κ)) → SequentialIndex κ
  | some (link, some sir) =>
    { si with
      header := link
      indexFile := si.indexFile.modifyHead fun first =>
        { sir with
          currentPos := endOfFile, currentFile := .indexFile
          nextPos := first.nextPos, nextFile := first.nextFile } }
  | _ => si

/-- The stream of the index file after the read: good when the file went on for the whole record. -/
def acrossStream :
    Option (SequentialIndexHeader × Option (SequentialIndexRecord κ)) → Stream
  | some (_, some _) => .index
  | _ => ⟨.index, false⟩

/-- The branch of `erase` for an overflow chain that hangs off the header. -/
def eraseHeader (si : SequentialIndex κ) (fuel : Nat) (indexFile : Stream) (data : κ)
    (first : Int) : Option (List Int × SequentialIndex κ) :=
  let across := if indexFile.good then si.readAcross first else none
  let sirCur := acrossRecord across
  if sirCur.data = data then some ([], si.writeAcross across)
  else if sirCur.nextFile = .indexFile ∨ sirCur.nextPos = endOfFile ∨ data < sirCur.data then
    some ([], si)
  else loop (si.eraseAuxBody (acrossStream across) data) fuel
    (sirCur, si.moveReadRecord .aux sirCur.nextPos sirCur)

/-- The record to delete is not in the files: no overflow record hangs where the search stopped. -/
def NotInFiles (bsr : BinarySearchResponse κ) : Prop :=
  bsr.header = true ∧ bsr.sih.nextFile = .indexFile ∨
    bsr.location = .recPrev ∧ bsr.sirPrev.nextFile = .indexFile ∨
    bsr.location = .recNext ∧ bsr.sir.nextFile = .indexFile ∨
    bsr.header = true ∧ bsr.sih.nextPos = endOfFile ∨
    bsr.location = .recPrev ∧ bsr.sirPrev.nextPos = endOfFile ∨
    bsr.location = .recNext ∧ bsr.sir.nextPos = endOfFile

instance (bsr : BinarySearchResponse κ) : Decidable (NotInFiles bsr) :=
  inferInstanceAs (Decidable (_ ∧ _ ∨ _))

/-- The branches of `erase` on what the binary search found. -/
def eraseAt (si : SequentialIndex κ) (fuel : Nat) (data : κ) (bsr : BinarySearchResponse κ) :
    Option (List Int × SequentialIndex κ) :=
  match bsr.location with
  | .emptyFile => some ([], si)
  | .recCur => si.eraseCur fuel bsr
  | location =>
    if NotInFiles bsr then some ([], si)
    else if bsr.header then si.eraseHeader fuel bsr.file data bsr.sih.nextPos
    else
      let sirPrev := if location = .recPrev then bsr.sirPrev else bsr.sir
      loop (si.eraseAuxBody bsr.file data) fuel
        (sirPrev, si.moveReadRecord .aux sirPrev.nextPos default)

/-- `erase`: the positions it reports, and the files. -/
def erase (si : SequentialIndex κ) (fuel : Nat) (data : κ) :
    Option (List Int × SequentialIndex κ) :=
  (si.binarySearch fuel data).bind (si.eraseAt fuel data)

/-- `remove`. -/
def remove (si : SequentialIndex κ) (fuel : Nat) (data : κ) :
    Option (List Int × SequentialIndex κ) := do
  let (records, si) ← si.erase fuel data
  if records.isEmpty then some (records, si)
  else (si.rebuild fuel).map (records, ·)

end SequentialIndex

end Rdbms
