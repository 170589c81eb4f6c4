import Rdbms.Avl.Search

/-!
# The AVL index on its stream

The objects of a key type work on one static stream, which has failed when it was opened while it
was open already, or when a read found nothing. Seeks, reads and writes on a failed stream do
nothing: a read leaves the node it should have filled as it was, and the end of the file is at `-1`.
This module is the program again, with the state of the stream: each function under its name, with
the node that it fills passed in. A node that has just been declared holds some key (`memory`).

On a good stream the functions do what those without a stream do, as long as these have a result.
-/

namespace Rdbms

/-- An index and the stream it works on. -/
structure AVLStream (κ : Type) extends AVLIndex κ where
  good : Bool
  /-- The key in a node that has not been filled. -/
  memory : κ

namespace AVLStream
variable {κ : Type} [KeyType κ]

/-! ## Reading and writing -/

/-- A node that has just been declared. -/
def fresh (s : AVLStream κ) : AVLIndexNode κ := { data := s.memory }

/-- Seek to a node and read it into `node`. -/
def read (s : AVLStream κ) (pos : Int) (node : AVLIndexNode κ) : AVLIndexNode κ × AVLStream κ :=
  if s.good then
    match s.toAVLIndex.read pos with
    | some node => (node, s)
    | none => (node, { s with good := false })
  else (node, s)

/-- Seek to a node, or to the end of the file, and write a node there. -/
def write (s : AVLStream κ) (pos : Int) (node : AVLIndexNode κ) : AVLStream κ :=
  if s.good then
    match s.toAVLIndex.write pos node with
    | some si => { s with toAVLIndex := si }
    | none => { s with good := false }
  else s

/-- Change the header in memory and write it to the file. -/
def writeHeader (s : AVLStream κ) (header : AVLIndexHeader) : AVLStream κ :=
  if s.good then { s with header, fileHeader := header } else { s with header }

/-- The offset of the end of the file. -/
def tellEnd (s : AVLStream κ) : Int := if s.good then avlLayout.endPos s.nodes else -1

/-! ## Balance -/

/-- `height`. -/
def height (s : AVLStream κ) (nodePointer : Int) : Int × AVLStream κ :=
  if nodePointer = -1 then (-1, s)
  else
    let (node, s) := s.read nodePointer s.fresh
    (node.height, s)

/-- `updateHeigth`. -/
def updateHeigth (s : AVLStream κ) (nodePointer : Int) : AVLStream κ :=
  if nodePointer = -1 then s
  else
    let (node, s) := s.read nodePointer s.fresh
    let (hLeft, s) := s.height node.leftChildren
    let (hRigth, s) := s.height node.rightChildren
    s.write nodePointer
      { node with
        height := 1 + (if hLeft < hRigth then hRigth else hLeft)
        currentPos := nodePointer }

/-- `balancingFactor`. -/
def balancingFactor (s : AVLStream κ) (nodePointer : Int) : Int × AVLStream κ :=
  if nodePointer = -1 then (0, s)
  else
    let (node, s) := s.read nodePointer s.fresh
    let (hLeft, s) := s.height node.leftChildren
    let (hRight, s) := s.height node.rightChildren
    (hLeft - hRight, s)

/-- `isBalanced`. -/
def isBalanced (s : AVLStream κ) (nodePointer : Int) : Bool × AVLStream κ :=
  if nodePointer = -1 then (true, s)
  else
    let (balance, s) := s.balancingFactor nodePointer
    (!(balance < -1 ∨ 1 < balance), s)

/-- `leftRotation`. -/
def leftRotation (s : AVLStream κ) (nodePointer : Int) : AVLStream κ :=
  let (a, s) := s.read nodePointer s.fresh
  let childPointer := a.rightChildren
  let (b, s) := s.read a.rightChildren s.fresh
  let a := { a with rightChildren := b.leftChildren }
  let b := { b with leftChildren := childPointer }
  let s := s.write nodePointer { b with currentPos := nodePointer }
  let s := s.write childPointer { a with currentPos := childPointer }
  let s := s.updateHeigth childPointer
  s.updateHeigth nodePointer

/-- `rightRotation`. -/
def rightRotation (s : AVLStream κ) (nodePointer : Int) : AVLStream κ :=
  let (a, s) := s.read nodePointer s.fresh
  let childPointer := a.leftChildren
  let (b, s) := s.read a.leftChildren s.fresh
  let a := { a with leftChildren := b.rightChildren }
  let b := { b with rightChildren := childPointer }
  let s := s.write nodePointer { b with currentPos := nodePointer }
  let s := s.write childPointer { a with currentPos := childPointer }
  let s := s.updateHeigth childPointer
  s.updateHeigth nodePointer

/-- `balance`. -/
def balance (s : AVLStream κ) (nodePointer : Int) : AVLStream κ :=
  if nodePointer = -1 then s
  else
    let (node, s) := s.read nodePointer s.fresh
    let (balance, s) := s.balancingFactor nodePointer
    if 1 < balance then
      let (left, s) := s.balancingFactor node.leftChildren
      let s := if left ≤ -1 then s.leftRotation node.leftChildren else s
      s.rightRotation nodePointer
    else if balance < -1 then
      let (right, s) := s.balancingFactor node.rightChildren
      let s := if 1 ≤ right then s.rightRotation node.rightChildren else s
      s.leftRotation nodePointer
    else s

/-- The end of `insert` and of `erase`. -/
def updateBalance (s : AVLStream κ) (cPointer : Int) : AVLStream κ :=
  let s := s.updateHeigth cPointer
  let (balanced, s) := s.isBalanced cPointer
  if !balanced then s.balance cPointer else s

/-! ## Insertion -/

/-- The branch of `insert` for an empty tree. -/
def insertRoot (s : AVLStream κ) (iNode : AVLIndexNode κ) : AVLStream κ :=
  let s := s.write 32 { iNode with currentPos := 32 }
  s.writeHeader { s.header with rootPointer := 32 }

/-- The slot of a new node. -/
def allocate (s : AVLStream κ) : Int × AVLStream κ :=
  if s.header.lastDelete ≠ -1 then
    let insertPointer := s.header.lastDelete
    let (tempNode, s) := s.read insertPointer s.fresh
    (insertPointer, s.writeHeader { s.header with lastDelete := tempNode.nextDelete })
  else (s.tellEnd, s)

/-- Write a new node, and where it went. -/
def insertNode (s : AVLStream κ) (iNode : AVLIndexNode κ) : Int × AVLStream κ :=
  let (insertPointer, s) := s.allocate
  (insertPointer, s.write insertPointer { iNode with currentPos := insertPointer })

/-- `insertDuplicate`. The duplicates file has a stream of its own. -/
def insertDuplicate (s : AVLStream κ) (rec recDup : AVLIndexNode κ) : AVLStream κ :=
  let (duplicatesFile, duplicatePosition) :=
    insertDuplicateFile avlDuplicatesLayout s.duplicatesFile { recDup with dupPos := rec.dupPos }
  { s with duplicatesFile }.write rec.currentPos { rec with dupPos := duplicatePosition }

/-- What follows the insertion into a subtree of `cPointer`. -/
def insertEnd (cPointer : Int) : Outcome (AVLStream κ) Unit → Outcome (AVLStream κ) Unit
  | (.error e, s) => (.error e, s)
  | (.ok (), s) => (.ok (), s.updateBalance cPointer)

/-- `insert`. -/
def insert : Nat → AVLStream κ → Int → AVLIndexNode κ → AVLIndexNode κ →
    Option (Outcome (AVLStream κ) Unit)
  | 0, _, _, _, _ => none
  | fuel + 1, s, cPointer, cNode, iNode =>
    if cPointer = -1 then some (.ok (), s.insertRoot iNode)
    else
      let (cNode, s) := s.read cPointer cNode
      if cNode.data < iNode.data then
        if cNode.rightChildren ≠ -1 then
          (insert fuel s cNode.rightChildren cNode iNode).map (insertEnd cPointer)
        else
          let (insertPointer, s) := s.insertNode iNode
          let cNode := { cNode with rightChildren := insertPointer, currentPos := cPointer }
          some (insertEnd cPointer (.ok (), s.write cPointer cNode))
      else if iNode.data < cNode.data then
        if cNode.leftChildren ≠ -1 then
          (insert fuel s cNode.leftChildren cNode iNode).map (insertEnd cPointer)
        else
          let (insertPointer, s) := s.insertNode iNode
          let cNode := { cNode with leftChildren := insertPointer, currentPos := cPointer }
          some (insertEnd cPointer (.ok (), s.write cPointer cNode))
      else if s.pk then some (.error (.runtimeError "Couldn't add duplicate in PK"), s)
      else some (.ok (), s.insertDuplicate cNode iNode)

/-- The loop of `bulk_insert`. -/
def insertAll (fuel : Nat) : AVLStream κ → List (κ × Int) → Option (Outcome (AVLStream κ) Unit)
  | s, [] => some (.ok (), s)
  | s, (data, rawPos) :: records => do
    match ← insert fuel s s.header.rootPointer s.fresh { data, rawPos } with
    | (.error e, s) => some (.error e, s)
    | (.ok (), s) => insertAll fuel s records

/-! ## Search -/

/-- `search`, from a node. -/
def searchNode : Nat → AVLStream κ → Int → AVLIndexNode κ → κ →
    Option (Outcome (AVLStream κ) (AVLIndexNode κ))
  | 0, _, _, _, _ => none
  | fuel + 1, s, currentPointer, cNode, item =>
    if currentPointer = -1 then
      some (.error (.runtimeError "No se ha encontrado el elemento!"), s)
    else
      let (cNode, s) := s.read currentPointer cNode
      if cNode.data < item then searchNode fuel s cNode.rightChildren cNode item
      else if item < cNode.data then searchNode fuel s cNode.leftChildren cNode item
      else some (.ok cNode, s)

/-- What follows the search in a subtree of `cPointer`: its node is read again. -/
def readAgain (cPointer : Int) : AVLIndexNode κ × List Int × AVLStream κ →
    AVLIndexNode κ × List Int × AVLStream κ
  | (cNode, records, s) =>
    let (cNode, s) := s.read cPointer cNode
    (cNode, records, s)

/-- `rangeSearch`, from a node: the node as it is in the end, and the positions. -/
def rangeSearchNode : Nat → AVLStream κ → Int → AVLIndexNode κ → κ → κ → List Int →
    Option (AVLIndexNode κ × List Int × AVLStream κ)
  | 0, _, _, _, _, _, _ => none
  | fuel + 1, s, cPointer, cNode, first, last, records =>
    if cPointer = -1 then some (cNode, records, s)
    else do
      let (cNode, s) := s.read cPointer cNode
      let (cNode, records, s) ← (if first < cNode.data then
          (rangeSearchNode fuel s cNode.leftChildren cNode first last records).map
            (readAgain cPointer)
        else some (cNode, records, s))
      let records ← (if first ≤ cNode.data ∧ cNode.data ≤ last then
          s.getAllRawCurrentRecords fuel cNode records
        else some records)
      if cNode.data < last then
        (rangeSearchNode fuel s cNode.rightChildren cNode first last records).map
          (readAgain cPointer)
      else some (cNode, records, s)

/-! ## Deletion -/

/-- `maxNode`. -/
def maxNode : Nat → AVLStream κ → Int → Option (Outcome (AVLStream κ) Int)
  | 0, _, _ => none
  | fuel + 1, s, nodePointer =>
    if nodePointer = -1 then some (.error (.runtimeError "El arbol está vacío!"), s)
    else
      let (node, s) := s.read nodePointer s.fresh
      if node.rightChildren = -1 then some (.ok nodePointer, s)
      else maxNode fuel s node.rightChildren

/-- `fixValue`. -/
def fixValue : Nat → AVLStream κ → Int → AVLIndexNode κ → κ → AVLIndexNode κ →
    Option (AVLStream κ)
  | 0, _, _, _, _, _ => none
  | fuel + 1, s, cPointer, cNode, item1, tempNode =>
    if cPointer = -1 then some s
    else
      let (cNode, s) := s.read cPointer cNode
      if item1 < cNode.data then fixValue fuel s cNode.leftChildren cNode item1 tempNode
      else if cNode.data < item1 then fixValue fuel s cNode.rightChildren cNode item1 tempNode
      else
        some (s.write cPointer
          { cNode with toRecord := tempNode.toRecord, currentPos := cPointer })

/-- Take a node with at most one child out of the tree. -/
def eraseNode (s : AVLStream κ) (cPointer pPointer : Int) (cNode : AVLIndexNode κ)
    (child : Int) : AVLStream κ :=
  let s :=
    if pPointer ≠ -1 then
      let (pNode, s) := s.read pPointer s.fresh
      let pNode :=
        if pNode.leftChildren = cPointer then { pNode with leftChildren := child }
        else if pNode.rightChildren = cPointer then { pNode with rightChildren := child }
        else pNode
      s.write pPointer { pNode with currentPos := pPointer }
    else s
  let s := s.write cPointer
    { cNode with nextDelete := s.header.lastDelete, currentPos := cPointer }
  s.writeHeader { s.header with lastDelete := cPointer }

/-- What follows the deletion from a subtree of `cPointer`. -/
def eraseEnd (cPointer : Int) : Outcome (AVLStream κ) (Bool × AVLIndexNode κ) →
    Outcome (AVLStream κ) (Bool × AVLIndexNode κ)
  | (.ok (true, cNode), s) => (.ok (true, cNode), s.updateBalance cPointer)
  | out => out

/-- `erase`: whether the key was there, and the last node that was read. -/
def erase : Nat → AVLStream κ → Int → Int → AVLIndexNode κ → κ →
    Option (Outcome (AVLStream κ) (Bool × AVLIndexNode κ))
  | 0, _, _, _, _, _ => none
  | fuel + 1, s, cPointer, pPointer, cNode, item =>
    if cPointer = -1 then some (.ok (false, cNode), s)
    else
      let (cNode, s) := s.read cPointer cNode
      if cNode.data < item then
        (erase fuel s cNode.rightChildren cPointer cNode item).map (eraseEnd cPointer)
      else if item < cNode.data then
        (erase fuel s cNode.leftChildren cPointer cNode item).map (eraseEnd cPointer)
      else if cNode.leftChildren = -1 ∧ cNode.rightChildren = -1 then
        some (eraseEnd cPointer (.ok (true, cNode), s.eraseNode cPointer pPointer cNode (-1)))
      else if cNode.leftChildren = -1 then
        some (eraseEnd cPointer
          (.ok (true, cNode), s.eraseNode cPointer pPointer cNode cNode.rightChildren))
      else if cNode.rightChildren = -1 then
        some (eraseEnd cPointer
          (.ok (true, cNode), s.eraseNode cPointer pPointer cNode cNode.leftChildren))
      else do
        match ← s.maxNode fuel cNode.leftChildren with
        | (.error e, s) => some (.error e, s)
        | (.ok newPos, s) =>
          let (tempNode, s) := s.read newPos s.fresh
          match ← erase fuel s s.header.rootPointer (-1) s.fresh tempNode.data with
          | (.error e, s) => some (.error e, s)
          | (.ok (_, otherNode), s) =>
            let s ← s.fixValue fuel cPointer otherNode cNode.data tempNode
            some (eraseEnd cPointer (.ok (true, cNode), s))

end AVLStream

end Rdbms
