import TorrentX.Machinery.Wire

/-!
# Client/FilesPicker — the rows of the file list and their marks

The model of `FilesPicker`: the files and directories of a torrent as one vector of rows, a
directory before its contents, with the nesting in the levels only.  `setMark` is the source's two
loops, the second with its inner count.
-/

namespace TorrentX

/-- `FileNode`. -/
structure FileNode where
  name : Bytes
  level : ℤ
  isMarked : Bool
  isLeaf : Bool := false
  fullsize : UInt64 := 0
deriving DecidableEq

namespace FilesPicker

/-- `FilesPicker::MAX_FILES`. -/
def maxFiles : ℕ := 100

/-- `FilesPicker::MAX_LENGTH`. -/
def maxLength : ℕ := 100000

/-- `FilesPicker::ROOT`. -/
def root : ℕ := 0

/-! ## Reading and writing rows -/

/-- The level read at an index: past the last row the read yields `pastLevel`. -/
def levelAt (pastLevel : ℤ) (holder : List FileNode) (index : ℕ) : ℤ :=
  (holder[index]?.map FileNode.level).getD pastLevel

def isMarkedAt (holder : List FileNode) (index : ℕ) : Bool :=
  (holder[index]?.map FileNode.isMarked).getD false

/-- The rows with the mark of one of them assigned. -/
def assign (holder : List FileNode) (index : ℕ) (mark : Bool) : List FileNode :=
  holder.modify index fun node => { node with isMarked := mark }

/-- `getMarks`. -/
def getMarks (holder : List FileNode) : List Bool := holder.map FileNode.isMarked

/-! ## The loops of `setMark`

Each loop has its index and what it compares with as arguments.  What a read past the last row
yields is a parameter, since the source makes one and the language does not say what it finds. -/

section Loops

variable (pastLevel : ℤ)

/-- The first loop: the rows from `index` on, while their level is larger than the picked one.  The
level is read before the index is compared with the size.  Each pass takes one of `passes`, and as
many as there are rows is enough. -/
def markBelow (pickedLevel : ℤ) (mark : Bool) : ℕ → ℕ → List FileNode → List FileNode
  | 0, _, holder => holder
  | passes + 1, index, holder =>
    if pickedLevel < levelAt pastLevel holder index ∧ index < holder.length then
      markBelow pickedLevel mark passes (index + 1) (assign holder index mark)
    else holder

/-- The inner count of the second loop: `temp_index` and `subtree_flags` when it ends. -/
def countFlags (holder : List FileNode) (level : ℤ) : ℕ → ℕ → ℕ → ℕ × ℕ
  | 0, tempIndex, subtreeFlags => (tempIndex, subtreeFlags)
  | passes + 1, tempIndex, subtreeFlags =>
    if tempIndex < holder.length ∧ level < levelAt pastLevel holder tempIndex then
      countFlags holder level passes (tempIndex + 1)
        (if isMarkedAt holder tempIndex then subtreeFlags + 1 else subtreeFlags)
    else (tempIndex, subtreeFlags)

/-- What the second loop does to a row whose level is smaller than the picked one. -/
def markParent (mark : Bool) (current : ℕ) (holder : List FileNode) : List FileNode :=
  if !mark then assign holder current mark
  else
    let (tempIndex, subtreeFlags) := countFlags pastLevel holder (levelAt pastLevel holder current)
      holder.length (current + 1) 0
    if subtreeFlags = tempIndex - current - 1 then assign holder current mark else holder

/-- The second loop: the rows before `current`, from the last to the first. -/
def markAbove (mark : Bool) : ℕ → ℤ → List FileNode → List FileNode
  | 0, _, holder => holder
  | current + 1, pickedLevel, holder =>
    if levelAt pastLevel holder current < pickedLevel then
      markAbove mark current (levelAt pastLevel holder current)
        (markParent pastLevel mark current holder)
    else markAbove mark current pickedLevel holder

/-- `setMark`. -/
def setMark (holder : List FileNode) (index : ℕ) (mark : Bool) : List FileNode :=
  let holder := assign holder index mark
  let pickedLevel := levelAt pastLevel holder index
  let holder := markBelow pastLevel pickedLevel mark holder.length (index + 1) holder
  markAbove pastLevel mark index pickedLevel holder

end Loops

end FilesPicker

end TorrentX
