import TorrentX.Machinery.RankedSet
import TorrentX.Client.FilesPicker

/-!
# Client/FileTree — from a list of file paths to rows, and from marks to priorities

The model of `pickDownloadFiles`, `dfs`, `recalcSize` and of the loop of `createDownload` that sets
priorities.  Every prefix of a path is numbered on first sight and hung under the number of the
prefix before it; a depth-first walk writes the rows.  A subscript outside its array is a fault.

The counters are `int32_t` and the positions in a path too; they stay far below their range, since
there are at most `maxFiles` numbers and a path is a file name.
-/

namespace TorrentX

open Wire FilesPicker

/-- The subscripts that may be out of range, and a walk deeper than its fuel. -/
inductive TreeFault
  | treeRange
  | resultRange
  | tooDeep
deriving DecidableEq

/-- `std::string sep = "/"`. -/
def sep : UInt8 := 47

/-- The local state of `pickDownloadFiles`: the maps default to zero and to the empty string, and
`tree` has `maxFiles` sets of numbers, each in increasing order. -/
structure FileTree where
  isInTree : Bytes → ℕ
  numberToName : ℕ → Bytes
  tree : ℕ → List ℕ
  currentNumber : ℕ

namespace FileTree

def empty : FileTree := ⟨fun _ => 0, fun _ => [], fun _ => [], 1⟩

/-- `tree[vertex]`. -/
def children (t : FileTree) (vertex : ℕ) : Except TreeFault (List ℕ) :=
  if vertex < maxFiles then .ok (t.tree vertex) else .error .treeRange

/-! ## Numbering the prefixes of a path

The loop cuts `name` at its first separator and keeps in `fullPos` how much of the path it has gone
through, so the prefix it looks up is the path up to there.  A set of numbers is a list without
repetitions in increasing order, as `std::set` iterates. -/

/-- The body of the `if` for a prefix: one that is not in the tree gets the next number, below its
parent. -/
def enter (t : FileTree) (parentNumber : ℕ) (pathPart : Bytes) : Except TreeFault FileTree :=
  if t.isInTree pathPart = 0 then do
    let siblings ← t.children parentNumber
    return {
      isInTree := Function.update t.isInTree pathPart t.currentNumber
      numberToName := Function.update t.numberToName t.currentNumber pathPart
      tree := Function.update t.tree parentNumber (OrderedSet.insert id t.currentNumber siblings)
      currentNumber := t.currentNumber + 1 }
  else return t

/-- The loop over the separators of one path.  Each pass takes one of `passes`, and leaves a shorter
`name`. -/
def addPath (fullName : Bytes) : ℕ → Bytes → ℕ → ℕ → FileTree → Except TreeFault FileTree
  | 0, _, _, _, t => .ok t
  | passes + 1, name, fullPos, parentNumber, t => do
    let pos := name.findIdx? (· = sep)
    let fullPos := fullPos + pos.getD name.length
    let pathPart := fullName.take fullPos
    let t ← t.enter parentNumber pathPart
    match pos with
    | none => return t
    | some pos =>
      addPath fullName passes ((name.drop (pos + 1)).take maxLength) (fullPos + 1)
        (t.isInTree pathPart) t

/-- The loop over the files. -/
def addFiles (files : List Bytes) : Except TreeFault FileTree :=
  files.foldlM (fun t file => addPath file (file.length + 1) file 0 root t) empty

/-! ## The walk

Both functions call themselves for each child.  The fuel is one more than there are places in
`tree`, and it is never used up: the numbers grow on the way down. -/

/-- `InfoHelper::dfs`.  A parent is `-1` for the root. -/
def dfs (t : FileTree) : ℕ → List FileNode → ℕ → ℤ → ℤ → Except TreeFault (List FileNode)
  | 0, _, _, _, _ => .error .tooDeep
  | fuel + 1, result, vertex, lvl, parent => do
    let children ← t.children vertex
    let result :=
      if parent ≠ -1 then
        result ++ [{ name := t.numberToName vertex
                     level := lvl
                     isMarked := false
                     isLeaf := children.isEmpty }]
      else result
    children.foldlM (fun result (child : ℕ) =>
      if (child : ℤ) ≠ parent then dfs t fuel result child (lvl + 1) vertex else pure result) result

/-- `result[i].fullsize_ += result[j].fullsize_`. -/
def addSize (result : List FileNode) (i j : ℤ) : Except TreeFault (List FileNode) :=
  if 0 ≤ i ∧ i < result.length ∧ 0 ≤ j ∧ j < result.length then
    let added := (result[j.toNat]?.map FileNode.fullsize).getD 0
    .ok (result.modify i.toNat fun node => { node with fullsize := node.fullsize + added })
  else .error .resultRange

/-- `InfoHelper::recalcSize`. -/
def recalcSize (t : FileTree) : ℕ → List FileNode → ℕ → ℤ → Except TreeFault (List FileNode)
  | 0, _, _, _ => .error .tooDeep
  | fuel + 1, result, vertex, parent => do
    let children ← t.children vertex
    let result ← children.foldlM (fun result (child : ℕ) =>
      if (child : ℤ) ≠ parent then recalcSize t fuel result child vertex else pure result) result
    if parent ≠ -1 ∧ 0 ≤ parent - 1 then addSize result (parent - 1) (vertex - 1) else pure result

end FileTree

/-! ## Listing the files -/

/-- The last loop of `pickDownloadFiles` on one name: what follows its last separator. -/
def lastName (name : Bytes) : Bytes := (name.reverse.takeWhile (· ≠ sep)).reverse

/-- `pickDownloadFiles`, on the rows that are there already. -/
def pickDownloadFiles (holder : List FileNode) (files : List Bytes) :
    Except TreeFault (List FileNode) := do
  let t ← FileTree.addFiles files
  let holder ← t.dfs (maxFiles + 1) holder root 0 (-1)
  let holder ← t.recalcSize (maxFiles + 1) holder root (-1)
  return holder.map fun node => { node with name := lastName node.name }

/-! ## Setting the priorities -/

/-- The two priorities `createDownload` uses. -/
inductive DownloadPriority
  | dontDownload
  | default
deriving DecidableEq

def DownloadPriority.ofMark (isMarked : Bool) : DownloadPriority :=
  if isMarked then .default else .dontDownload

/-- The loop of `createDownload`: the file whose index is the count of leaves so far gets the
priority of the row. -/
def setPriorities :
    ℕ → List FileNode → (ℕ → Option DownloadPriority) → ℕ → Option DownloadPriority
  | _, [], priority => priority
  | currentFile, object :: holder, priority =>
    if object.isLeaf then
      setPriorities (currentFile + 1) holder
        (Function.update priority currentFile (some (.ofMark object.isMarked)))
    else setPriorities currentFile holder priority

/-- The priority `createDownload` sets for a file index; `none` when it sets none. -/
def createDownload (holder : List FileNode) : ℕ → Option DownloadPriority :=
  setPriorities 0 holder fun _ => none

end TorrentX
