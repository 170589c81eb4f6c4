import Rdbms.Index.Basic

/-!
# The AVL index

`AVLIndex` keeps a file of nodes behind a header, and the duplicates file. A link is the offset of
a node, `-1` for none. The header has the link to the root and the head of the list of freed nodes;
the object keeps a copy of it in memory, which is what the functions read. This module is the
program: its functions under their names, with the file open.

A read past the end of the file, or one at a negative offset, puts the stream into its failed
state, in which nothing more is read or written. The model has no result there (`none`), as it has
none for a call that has not come back within the bound on its recursion. What is proved about a
call always says that there is a result.
-/

namespace Rdbms

/-- `AVLIndexHeader`. -/
structure AVLIndexHeader where
  rootPointer : Int
  lastDelete : Int
deriving DecidableEq, Repr

/-- `AVLIndexNode`. -/
structure AVLIndexNode (κ : Type) extends Record κ where
  currentPos : Int := 0
  leftChildren : Int := -1
  rightChildren : Int := -1
  nextDelete : Int := -1
  height : Int := 0
deriving DecidableEq

/-- The file of the nodes: `sizeof(AVLIndexHeader)` bytes, then nodes of
`sizeof(AVLIndexNode<KEY_TYPE>)` bytes. -/
def avlLayout : Layout := ⟨32, 120, by decide⟩

/-- The duplicates file of an AVL index. -/
def avlDuplicatesLayout : Layout := ⟨0, 120, by decide⟩

namespace AVLIndexNode
variable {κ : Type}

instance [Inhabited κ] : Inhabited (AVLIndexNode κ) := ⟨{ data := default }⟩

instance : IndexRecord (AVLIndexNode κ) κ where
  toRecord := toRecord
  setDupPos r p := { r with dupPos := p }
  dupPos_setDupPos _ _ := rfl
  rawPos_setDupPos _ _ := rfl
  data_setDupPos _ _ := rfl

end AVLIndexNode

/-- The files of an `AVLIndex`, its `PK` flag and the header in memory. -/
structure AVLIndex (κ : Type) where
  pk : Bool
  header : AVLIndexHeader
  /-- The header in the file. -/
  fileHeader : AVLIndexHeader
  nodes : List (AVLIndexNode κ)
  duplicatesFile : List (AVLIndexNode κ)
deriving DecidableEq

namespace AVLIndex
variable {κ : Type} [KeyType κ]

/-- `initIndex` on a new file. -/
def initIndex (pk : Bool) : AVLIndex κ := ⟨pk, ⟨-1, -1⟩, ⟨-1, -1⟩, [], []⟩

/-! ## Reading and writing -/

/-- Seek to a node and read it. -/
def read (si : AVLIndex κ) (pos : Int) : Option (AVLIndexNode κ) := avlLayout.read si.nodes pos

/-- Seek to a node, or to the end of the file, and write a node there. -/
def write (si : AVLIndex κ) (pos : Int) (node : AVLIndexNode κ) : Option (AVLIndex κ) :=
  match avlLayout.slot? pos with
  | none => none
  | some i =>
    if i ≤ si.nodes.length then some { si with nodes := avlLayout.write si.nodes pos node }
    else none

/-- Change the header and write it to the file. -/
def writeHeader (si : AVLIndex κ) (header : AVLIndexHeader) : AVLIndex κ :=
  { si with header, fileHeader := header }

/-! ## Balance -/

/-- `height`. -/
def height (si : AVLIndex κ) (nodePointer : Int) : Option Int :=
  if nodePointer = -1 then some (-1) else (si.read nodePointer).map (·.height)

/-- `updateHeigth`. -/
def updateHeigth (si : AVLIndex κ) (nodePointer : Int) : Option (AVLIndex κ) :=
  if nodePointer = -1 then some si
  else do
    let node ← si.read nodePointer
    let hLeft ← si.height node.leftChildren
    let hRigth ← si.height node.rightChildren
    si.write nodePointer
      { node with height := 1 + (if hLeft < hRigth then hRigth else hLeft), currentPos := nodePointer }

/-- `balancingFactor`. -/
def balancingFactor (si : AVLIndex κ) (nodePointer : Int) : Option Int :=
  if nodePointer = -1 then some 0
  else do
    let node ← si.read nodePointer
    let hLeft ← si.height node.leftChildren
    let hRight ← si.height node.rightChildren
    some (hLeft - hRight)

/-- `isBalanced`. -/
def isBalanced (si : AVLIndex κ) (nodePointer : Int) : Option Bool :=
  if nodePointer = -1 then some true
  else (si.balancingFactor nodePointer).map fun balance => !(balance < -1 ∨ 1 < balance)

/-- `leftRotation`: the nodes `a` at `nodePointer` and `b`, its right child, change places. -/
def leftRotation (si : AVLIndex κ) (nodePointer : Int) : Option (AVLIndex κ) := do
  let a ← si.read nodePointer
  let childPointer := a.rightChildren
  let b ← si.read a.rightChildren
  let a := { a with rightChildren := b.leftChildren }
  let b := { b with leftChildren := childPointer }
  let si ← si.write nodePointer { b with currentPos := nodePointer }
  let si ← si.write childPointer { a with currentPos := childPointer }
  let si ← si.updateHeigth childPointer
  si.updateHeigth nodePointer

/-- `rightRotation`: the nodes `a` at `nodePointer` and `b`, its left child, change places. -/
def rightRotation (si : AVLIndex κ) (nodePointer : Int) : Option (AVLIndex κ) := do
  let a ← si.read nodePointer
  let childPointer := a.leftChildren
  let b ← si.read a.leftChildren
  let a := { a with leftChildren := b.rightChildren }
  let b := { b with rightChildren := childPointer }
  let si ← si.write nodePointer { b with currentPos := nodePointer }
  let si ← si.write childPointer { a with currentPos := childPointer }
  let si ← si.updateHeigth childPointer
  si.updateHeigth nodePointer

/-- `balance`. -/
def balance (si : AVLIndex κ) (nodePointer : Int) : Option (AVLIndex κ) :=
  if nodePointer = -1 then some si
  else do
    let node ← si.read nodePointer
    let balance ← si.balancingFactor nodePointer
    if 1 < balance then
      let left ← si.balancingFactor node.leftChildren
      let si ← if left ≤ -1 then si.leftRotation node.leftChildren else some si
      si.rightRotation nodePointer
    else if balance < -1 then
      let right ← si.balancingFactor node.rightChildren
      let si ← if 1 ≤ right then si.rightRotation node.rightChildren else some si
      si.leftRotation nodePointer
    else some si

/-- The end of `insert` and of `erase`: the height of the node and its balance. -/
def updateBalance (si : AVLIndex κ) (cPointer : Int) : Option (AVLIndex κ) := do
  let si ← si.updateHeigth cPointer
  let balanced ← si.isBalanced cPointer
  if !balanced then si.balance cPointer else some si

/-! ## Insertion -/

/-- The branch of `insert` for an empty tree: the node is written behind the header. -/
def insertRoot (si : AVLIndex κ) (iNode : AVLIndexNode κ) : Option (AVLIndex κ) := do
  let si ← si.write 32 { iNode with currentPos := 32 }
  some (si.writeHeader { si.header with rootPointer := 32 })

/-- The slot of a new node: the head of the list of freed nodes, which is taken off the list, or the
end of the file. -/
def allocate (si : AVLIndex κ) : Option (Int × AVLIndex κ) :=
  if si.header.lastDelete ≠ -1 then do
    let insertPointer := si.header.lastDelete
    let tempNode ← si.read insertPointer
    some (insertPointer, si.writeHeader { si.header with lastDelete := tempNode.nextDelete })
  else some (avlLayout.endPos si.nodes, si)

/-- Write a new node, and where it went. -/
def insertNode (si : AVLIndex κ) (iNode : AVLIndexNode κ) : Option (Int × AVLIndex κ) := do
  let (insertPointer, si) ← si.allocate
  let si ← si.write insertPointer { iNode with currentPos := insertPointer }
  some (insertPointer, si)

/-- `insertDuplicate`: append the node to the duplicates file in front of the chain of `rec`, which
is written back. -/
def insertDuplicate (si : AVLIndex κ) (rec recDup : AVLIndexNode κ) : Option (AVLIndex κ) :=
  let (duplicatesFile, duplicatePosition) :=
    insertDuplicateFile avlDuplicatesLayout si.duplicatesFile { recDup with dupPos := rec.dupPos }
  { si with duplicatesFile }.write rec.currentPos { rec with dupPos := duplicatePosition }

/-- What follows the insertion into a subtree of `cPointer`. -/
def insertEnd (cPointer : Int) :
    Outcome (AVLIndex κ) Unit → Option (Outcome (AVLIndex κ) Unit)
  | (.error e, si) => some (.error e, si)
  | (.ok (), si) => (si.updateBalance cPointer).map (.ok (), ·)

/-- `insert`. -/
def insert : Nat → AVLIndex κ → Int → AVLIndexNode κ → Option (Outcome (AVLIndex κ) Unit)
  | 0, _, _, _ => none
  | fuel + 1, si, cPointer, iNode =>
    if cPointer = -1 then (si.insertRoot iNode).map (.ok (), ·)
    else do
      let cNode ← si.read cPointer
      if cNode.data < iNode.data then
        if cNode.rightChildren ≠ -1 then
          let res ← insert fuel si cNode.rightChildren iNode
          insertEnd cPointer res
        else
          let (insertPointer, si) ← si.insertNode iNode
          let cNode := { cNode with rightChildren := insertPointer, currentPos := cPointer }
          let si ← si.write cPointer cNode
          insertEnd cPointer (.ok (), si)
      else if iNode.data < cNode.data then
        if cNode.leftChildren ≠ -1 then
          let res ← insert fuel si cNode.leftChildren iNode
          insertEnd cPointer res
        else
          let (insertPointer, si) ← si.insertNode iNode
          let cNode := { cNode with leftChildren := insertPointer, currentPos := cPointer }
          let si ← si.write cPointer cNode
          insertEnd cPointer (.ok (), si)
      else if si.pk then some (.error (.runtimeError "Couldn't add duplicate in PK"), si)
      else (si.insertDuplicate cNode iNode).map (.ok (), ·)

/-- `add`. -/
def add (si : AVLIndex κ) (fuel : Nat) (data : κ) (rawPos : Int) :
    Option (Outcome (AVLIndex κ) (List Int)) :=
  (insert fuel si si.header.rootPointer { data, rawPos }).map fun
    | (.error _, si) => (.error (.runtimeError "Couldn't add"), si)
    | (.ok (), si) => (.ok [rawPos], si)

/-! ## Search -/

/-- `search`, from a node. -/
def searchNode (si : AVLIndex κ) : Nat → Int → κ → Option (Except Exn (AVLIndexNode κ))
  | 0, _, _ => none
  | fuel + 1, currentPointer, item =>
    if currentPointer = -1 then
      some (.error (.runtimeError "No se ha encontrado el elemento!"))
    else do
      let cNode ← si.read currentPointer
      if cNode.data < item then searchNode si fuel cNode.rightChildren item
      else if item < cNode.data then searchNode si fuel cNode.leftChildren item
      else some (.ok cNode)

/-! ## Deletion -/

/-- `maxNode`. -/
def maxNode (si : AVLIndex κ) : Nat → Int → Option (Except Exn Int)
  | 0, _ => none
  | fuel + 1, nodePointer =>
    if nodePointer = -1 then some (.error (.runtimeError "El arbol está vacío!"))
    else do
      let node ← si.read nodePointer
      if node.rightChildren = -1 then some (.ok nodePointer)
      else maxNode si fuel node.rightChildren

/-- `fixValue`: the node of `item1` gets the key and the positions of `tempNode`. -/
def fixValue (si : AVLIndex κ) : Nat → Int → κ → AVLIndexNode κ → Option (AVLIndex κ)
  | 0, _, _, _ => none
  | fuel + 1, cPointer, item1, tempNode =>
    if cPointer = -1 then some si
    else do
      let cNode ← si.read cPointer
      if item1 < cNode.data then fixValue si fuel cNode.leftChildren item1 tempNode
      else if cNode.data < item1 then fixValue si fuel cNode.rightChildren item1 tempNode
      else
        si.write cPointer
          { cNode with toRecord := tempNode.toRecord, currentPos := cPointer }

/-- Take a node with at most one child out of the tree: the link of its parent goes to `child`, and
the node goes to the front of the list of freed nodes. -/
def eraseNode (si : AVLIndex κ) (cPointer pPointer : Int) (cNode : AVLIndexNode κ)
    (child : Int) : Option (AVLIndex κ) := do
  let si ←
    if pPointer ≠ -1 then do
      let pNode ← si.read pPointer
      let pNode :=
        if pNode.leftChildren = cPointer then { pNode with leftChildren := child }
        else if pNode.rightChildren = cPointer then { pNode with rightChildren := child }
        else pNode
      si.write pPointer { pNode with currentPos := pPointer }
    else some si
  let si ← si.write cPointer
    { cNode with nextDelete := si.header.lastDelete, currentPos := cPointer }
  some (si.writeHeader { si.header with lastDelete := cPointer })

/-- What `erase` leaves behind: its result, the last node it has read and the index. -/
abbrev Erased (κ : Type) := Bool × AVLIndexNode κ × AVLIndex κ

/-- What follows the deletion from a subtree of `cPointer`. -/
def eraseEnd (cPointer : Int) : Erased κ → Option (Erased κ)
  | (false, cNode, si) => some (false, cNode, si)
  | (true, cNode, si) => (si.updateBalance cPointer).map (true, cNode, ·)

/-- `erase`. -/
def erase : Nat → AVLIndex κ → Int → Int → AVLIndexNode κ → κ → Option (Except Exn (Erased κ))
  | 0, _, _, _, _, _ => none
  | fuel + 1, si, cPointer, pPointer, cNode, item =>
    if cPointer = -1 then some (.ok (false, cNode, si))
    else do
      let cNode ← si.read cPointer
      if cNode.data < item then
        match ← erase fuel si cNode.rightChildren cPointer cNode item with
        | .error e => some (.error e)
        | .ok res => (eraseEnd cPointer res).map .ok
      else if item < cNode.data then
        match ← erase fuel si cNode.leftChildren cPointer cNode item with
        | .error e => some (.error e)
        | .ok res => (eraseEnd cPointer res).map .ok
      else if cNode.leftChildren = -1 ∧ cNode.rightChildren = -1 then
        let si ← si.eraseNode cPointer pPointer cNode (-1)
        (eraseEnd cPointer (true, cNode, si)).map .ok
      else if cNode.leftChildren = -1 then
        let si ← si.eraseNode cPointer pPointer cNode cNode.rightChildren
        (eraseEnd cPointer (true, cNode, si)).map .ok
      else if cNode.rightChildren = -1 then
        let si ← si.eraseNode cPointer pPointer cNode cNode.leftChildren
        (eraseEnd cPointer (true, cNode, si)).map .ok
      else
        match ← si.maxNode fuel cNode.leftChildren with
        | .error e => some (.error e)
        | .ok newPos =>
          let tempNode ← si.read newPos
          -- the predecessor is taken out of the whole tree, then its payload is copied
          match ← erase fuel si si.header.rootPointer (-1) cNode tempNode.data with
          | .error e => some (.error e)
          | .ok (_, _, si) =>
            let si ← si.fixValue fuel cPointer cNode.data tempNode
            (eraseEnd cPointer (true, cNode, si)).map .ok

/-- `remove`. The response has the position in the last node that `erase` has read; `cNode` is the
node as the call finds it. -/
def remove (si : AVLIndex κ) (fuel : Nat) (item : κ) :
    Option (Outcome (AVLIndex κ) (List Int)) :=
  (erase fuel si si.header.rootPointer (-1) default item).map fun
    | .error _ => (.error (.runtimeError "Couldn't erase"), si)
    | .ok (_, cNode, si) => (.ok [cNode.rawPos], si)

end AVLIndex

end Rdbms
