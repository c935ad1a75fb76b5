import TorrentX.Machinery.Run
import TorrentX.Client.Marks
import TorrentX.Client.FileTree

/-!
# Client/RowBounds — when does `setMark` stay inside the rows?

`setMark` once more, each row it reads or writes checked to be there.  The second loop and its inner
count test their index first and are always in range (`markAbove_eq`); the first loop reads a level
before it compares the index with the size, so it needs a row to stop at.  All accesses are in range
exactly when a row after the picked one has a level no larger (`setMark_inRange_iff`) — not at the
last row and the directories it is in (`not_inRange_iff_covers_last`) — and then what the read past
the last row yields does not matter (`eq_setMark_of_inRange`).
-/

namespace TorrentX

open Wire Outline

namespace FilesPicker

/-- A row outside `download_holder` was read or written. -/
inductive RowFault
  | rowRange
deriving DecidableEq

/-- Every row read or written was there. -/
def InRange (r : Except RowFault (List FileNode)) : Prop := ∃ holder, r = .ok holder

namespace Checked

/-! ## The loops, with every access checked

The bodies are those of `setMark` with each access to the vector replaced by a checked one.  The
tests stand where the source has them: before the read in the second loop and its inner count, after
it in the first. -/

/-- `download_holder[index]`, read. -/
def readRow (holder : List FileNode) (index : ℕ) : Except RowFault FileNode :=
  match holder[index]? with
  | some node => .ok node
  | none => .error .rowRange

/-- `download_holder[index].is_marked_ = mark`. -/
def writeMark (holder : List FileNode) (index : ℕ) (mark : Bool) :
    Except RowFault (List FileNode) :=
  if index < holder.length then .ok (assign holder index mark) else .error .rowRange

/-- The first loop: the row is read, then its index is compared with the size. -/
def markBelow (pickedLevel : ℤ) (mark : Bool) :
    ℕ → ℕ → List FileNode → Except RowFault (List FileNode)
  | 0, _, holder => .ok holder
  | passes + 1, index, holder => do
    let row ← readRow holder index
    if pickedLevel < row.level ∧ index < holder.length then
      let holder ← writeMark holder index mark
      markBelow pickedLevel mark passes (index + 1) holder
    else return holder

/-- The inner count: the index is compared with the size, then the two rows are read. -/
def countFlags (holder : List FileNode) (current : ℕ) :
    ℕ → ℕ → ℕ → Except RowFault (ℕ × ℕ)
  | 0, tempIndex, subtreeFlags => .ok (tempIndex, subtreeFlags)
  | passes + 1, tempIndex, subtreeFlags =>
    if tempIndex < holder.length then do
      let row ← readRow holder tempIndex
      let parent ← readRow holder current
      if parent.level < row.level then
        countFlags holder current passes (tempIndex + 1)
          (if row.isMarked then subtreeFlags + 1 else subtreeFlags)
      else return (tempIndex, subtreeFlags)
    else return (tempIndex, subtreeFlags)

/-- A directory is unmarked with its child, and marked when the count finds all below it marked. -/
def markParent (mark : Bool) (current : ℕ) (holder : List FileNode) :
    Except RowFault (List FileNode) :=
  if !mark then writeMark holder current mark
  else do
    let (tempIndex, subtreeFlags) ← countFlags holder current holder.length (current + 1) 0
    if subtreeFlags = tempIndex - current - 1 then writeMark holder current mark else return holder

/-- The second loop. -/
def markAbove (mark : Bool) : ℕ → ℤ → List FileNode → Except RowFault (List FileNode)
  | 0, _, holder => .ok holder
  | current + 1, pickedLevel, holder => do
    let row ← readRow holder current
    if row.level < pickedLevel then
      let holder ← markParent mark current holder
      let row ← readRow holder current
      markAbove mark current row.level holder
    else markAbove mark current pickedLevel holder

/-- `setMark`. -/
def setMark (holder : List FileNode) (index : ℕ) (mark : Bool) :
    Except RowFault (List FileNode) := do
  let holder ← writeMark holder index mark
  let picked ← readRow holder index
  let holder ← markBelow picked.level mark holder.length (index + 1) holder
  markAbove mark index picked.level holder

end Checked

/-! ## Accesses in range -/

section Assign

variable (holder : List FileNode) (index : ℕ) (mark : Bool)

/-- A mark is set in place. -/
@[simp] theorem length_assign : (assign holder index mark).length = holder.length :=
  List.length_modify ..

/-- Marks leave the levels alone. -/
@[simp] theorem levelAt_assign (pastLevel : ℤ) (k : ℕ) :
    levelAt pastLevel (assign holder index mark) k = levelAt pastLevel holder k := by
  rw [levelAt, levelAt, assign, List.getElem?_modify]
  cases holder[k]? with
  | none => rfl
  | some node =>
    by_cases hk : index = k
    · simp [hk]
    · simp [hk]

end Assign

namespace Checked

variable {holder : List FileNode} {index current : ℕ} {mark : Bool} {picked pastLevel : ℤ}

/-- A checked read in range is the read. -/
theorem exists_readRow (h : index < holder.length) (pastLevel : ℤ) :
    ∃ row, readRow holder index = .ok row ∧ row.level = levelAt pastLevel holder index ∧
      row.isMarked = isMarkedAt holder index := by
  refine ⟨holder[index], ?_, ?_, ?_⟩
  · rw [readRow, List.getElem?_eq_getElem h]
  · rw [levelAt, List.getElem?_eq_getElem h]
    rfl
  · rw [isMarkedAt, List.getElem?_eq_getElem h]
    rfl

/-- Past the last row there is nothing to read. -/
theorem readRow_of_le (h : holder.length ≤ index) : readRow holder index = .error .rowRange := by
  rw [readRow, List.getElem?_eq_none h]

theorem writeMark_of_lt (h : index < holder.length) (mark : Bool) :
    writeMark holder index mark = .ok (assign holder index mark) := if_pos h

/-! ## The second loop -/

/-- The index is compared with the size first, so the count reads no row that is not there. -/
theorem countFlags_eq (hc : current < holder.length) (passes tempIndex subtreeFlags : ℕ) :
    countFlags holder current passes tempIndex subtreeFlags
      = .ok (FilesPicker.countFlags pastLevel holder (levelAt pastLevel holder current) passes
          tempIndex subtreeFlags) := by
  induction passes generalizing tempIndex subtreeFlags with
  | zero => rfl
  | succ passes ih =>
    rw [countFlags, FilesPicker.countFlags]
    by_cases ht : tempIndex < holder.length
    · obtain ⟨row, hrow, hlevel, hmarked⟩ := exists_readRow ht pastLevel
      obtain ⟨parent, hparent, hparentLevel, -⟩ := exists_readRow hc pastLevel
      rw [if_pos ht, bind_of_eq_ok hrow, bind_of_eq_ok hparent, hlevel, hparentLevel, hmarked]
      by_cases hlt : levelAt pastLevel holder current < levelAt pastLevel holder tempIndex
      · have hgoes : tempIndex < holder.length ∧
            levelAt pastLevel holder current < levelAt pastLevel holder tempIndex := ⟨ht, hlt⟩
        rw [if_pos hlt, if_pos hgoes, ih]
      · rw [if_neg hlt, if_neg fun h => hlt h.2]
        rfl
    · rw [if_neg ht, if_neg fun h => ht h.1]
      rfl

/-- All its accesses are in range. -/
theorem markParent_eq (hc : current < holder.length) :
    markParent mark current holder
      = .ok (FilesPicker.markParent pastLevel mark current holder) := by
  rw [markParent, FilesPicker.markParent]
  cases mark with
  | false => exact writeMark_of_lt hc false
  | true =>
    have hcount := @countFlags_eq holder current pastLevel hc holder.length (current + 1) 0
    rw [if_neg (by simp), if_neg (by simp), bind_of_eq_ok hcount]
    obtain ⟨tempIndex, subtreeFlags⟩ := FilesPicker.countFlags pastLevel holder
      (levelAt pastLevel holder current) holder.length (current + 1) 0
    by_cases hall : subtreeFlags = tempIndex - current - 1
    · simp only [if_pos hall]
      exact writeMark_of_lt hc true
    · simp only [if_neg hall]
      rfl

/-- One mark is set at most. -/
theorem markParent_assigns (pastLevel : ℤ) (mark : Bool) (current : ℕ) (holder : List FileNode) :
    FilesPicker.markParent pastLevel mark current holder = assign holder current mark ∨
      FilesPicker.markParent pastLevel mark current holder = holder := by
  rw [FilesPicker.markParent]
  split
  · exact .inl rfl
  · dsimp only
    split
    · exact .inl rfl
    · exact .inr rfl

/-- **The second loop is always in range**: it starts at the picked row and goes down. -/
theorem markAbove_eq (hc : current ≤ holder.length) :
    markAbove mark current picked holder
      = .ok (FilesPicker.markAbove pastLevel mark current picked holder) := by
  induction current generalizing picked holder with
  | zero => rfl
  | succ current ih =>
    obtain ⟨row, hrow, hlevel, -⟩ := exists_readRow hc pastLevel
    rw [markAbove, FilesPicker.markAbove, bind_of_eq_ok hrow, hlevel]
    by_cases hlt : levelAt pastLevel holder current < picked
    · rw [if_pos hlt, if_pos hlt, bind_of_eq_ok (markParent_eq hc)]
      obtain ⟨hlength, hkept⟩ :
          (FilesPicker.markParent pastLevel mark current holder).length = holder.length ∧
          levelAt pastLevel (FilesPicker.markParent pastLevel mark current holder) current
            = levelAt pastLevel holder current := by
        rcases markParent_assigns pastLevel mark current holder with heq | heq
        · rw [heq]
          exact ⟨length_assign .., levelAt_assign ..⟩
        · rw [heq]
          exact ⟨rfl, rfl⟩
      obtain ⟨row', hrow', hlevel', -⟩ := exists_readRow (hlength.symm ▸ hc) pastLevel
      rw [bind_of_eq_ok hrow', hlevel', hkept]
      exact ih (hlength.symm ▸ Nat.le_of_succ_le hc)
    · rw [if_neg hlt, if_neg hlt]
      exact ih (Nat.le_of_succ_le hc)

/-! ## The first loop

The loop runs down the subtree of the picked row.  It ends at a row of a level no larger, or, where
there is none, with the read of the row after the last. -/

/-- A row to stop at keeps the first loop in range. -/
theorem markBelow_eq_ok {passes : ℕ}
    (h : ∃ j, index ≤ j ∧ j < holder.length ∧ level holder j ≤ picked) :
    markBelow picked mark passes index holder
      = .ok (FilesPicker.markBelow pastLevel picked mark passes index holder) := by
  induction passes generalizing index holder with
  | zero => rfl
  | succ passes ih =>
    obtain ⟨j, hij, hj, hle⟩ := h
    have hi : index < holder.length := hij.trans_lt hj
    obtain ⟨row, hrow, hlevel, -⟩ := exists_readRow hi pastLevel
    rw [markBelow, FilesPicker.markBelow, bind_of_eq_ok hrow, hlevel]
    by_cases hlt : picked < levelAt pastLevel holder index
    · have hne : index ≠ j := by
        rintro rfl
        rw [levelAt_eq_level hi] at hlt
        omega
      rw [if_pos ⟨hlt, hi⟩, if_pos ⟨hlt, hi⟩, bind_of_eq_ok (writeMark_of_lt hi mark)]
      refine ih ⟨j, by omega, by rwa [length_assign], ?_⟩
      rwa [level, levelAt_assign]
    · rw [if_neg fun h => hlt h.1, if_neg fun h => hlt h.1]
      rfl

theorem length_markBelow (passes : ℕ) : (FilesPicker.markBelow pastLevel picked mark passes index
    holder).length = holder.length := by
  induction passes generalizing index holder with
  | zero => rfl
  | succ passes ih =>
    rw [FilesPicker.markBelow]
    split
    · rw [ih, length_assign]
    · rfl

/-- Without a row to stop at the first loop reads past the last row. -/
theorem markBelow_eq_error {passes : ℕ} (hi : index ≤ holder.length)
    (hp : holder.length - index < passes)
    (h : ∀ j, index ≤ j → j < holder.length → picked < level holder j) :
    markBelow picked mark passes index holder = .error .rowRange := by
  induction passes generalizing index holder with
  | zero => exact absurd hp (Nat.not_lt_zero _)
  | succ passes ih =>
    rw [markBelow]
    rcases Nat.lt_or_ge index holder.length with hlt | hge
    · obtain ⟨row, hrow, hlevel, -⟩ := exists_readRow hlt 0
      rw [bind_of_eq_ok hrow, hlevel, if_pos ⟨h index le_rfl hlt, hlt⟩,
        bind_of_eq_ok (writeMark_of_lt hlt mark)]
      refine ih (by rw [length_assign]; omega) (by rw [length_assign]; omega) fun j hj hjl => ?_
      rw [length_assign] at hjl
      rw [level, levelAt_assign]
      exact h j (by omega) hjl
    · rw [readRow_of_le hge]
      rfl

end Checked

/-! ## `setMark` -/

variable {holder : List FileNode} {index : ℕ} {mark : Bool}

/-- With a row to stop at nothing is out of range, and the checks change nothing. -/
theorem checked_setMark_eq (pastLevel : ℤ)
    (h : ∃ j, index < j ∧ j < holder.length ∧ level holder j ≤ level holder index) :
    Checked.setMark holder index mark = .ok (setMark pastLevel holder index mark) := by
  obtain ⟨j, hij, hj, hle⟩ := h
  have hi : index < holder.length := hij.trans hj
  rw [Checked.setMark, setMark, bind_of_eq_ok (Checked.writeMark_of_lt hi mark)]
  have hlength := length_assign holder index mark
  have hle' : level (assign holder index mark) j
      ≤ levelAt pastLevel (assign holder index mark) index := by
    rwa [level, levelAt_assign, levelAt_assign, levelAt_eq_level hi]
  generalize assign holder index mark = rows at *
  rw [← hlength] at hi hj
  obtain ⟨row, hrow, hlevel, -⟩ := Checked.exists_readRow hi pastLevel
  rw [bind_of_eq_ok hrow, hlevel,
    bind_of_eq_ok (Checked.markBelow_eq_ok ⟨j, Nat.succ_le_of_lt hij, hj, hle'⟩)]
  refine Checked.markAbove_eq ?_
  rw [Checked.length_markBelow]
  exact hi.le

/-- A call in range has a row to stop at. -/
theorem exists_stop_of_inRange (h : InRange (Checked.setMark holder index mark)) :
    ∃ j, index < j ∧ j < holder.length ∧ level holder j ≤ level holder index := by
  by_contra hnone
  obtain ⟨result, hresult⟩ := h
  rw [Checked.setMark] at hresult
  obtain ⟨rows, hrows, hresult⟩ := exists_of_bind_eq_ok hresult
  have hi : index < holder.length := by
    by_contra hi
    rw [Checked.writeMark, if_neg hi] at hrows
    cases hrows
  rw [Checked.writeMark_of_lt hi] at hrows
  obtain rfl := Except.ok.inj hrows
  obtain ⟨row, hrow, hlevel, -⟩ := @Checked.exists_readRow (assign holder index mark) index
    (by rwa [length_assign]) 0
  rw [bind_of_eq_ok hrow, hlevel, levelAt_assign] at hresult
  have herr : Checked.markBelow (level holder index) mark (assign holder index mark).length
      (index + 1) (assign holder index mark) = .error .rowRange := by
    refine Checked.markBelow_eq_error ?_ ?_ fun j hj hjl => ?_
    · rwa [length_assign]
    · rw [length_assign]
      omega
    · rw [length_assign] at hjl
      rw [show level (assign holder index mark) j = level holder j from levelAt_assign ..]
      by_contra hle
      exact hnone ⟨j, hj, hjl, not_lt.1 hle⟩
  rw [herr] at hresult
  cases hresult

/-- **`setMark` stays inside the rows exactly when a row after the picked one ends its subtree.** -/
theorem setMark_inRange_iff (holder : List FileNode) (index : ℕ) (mark : Bool) :
    InRange (Checked.setMark holder index mark) ↔
      ∃ j, index < j ∧ j < holder.length ∧ level holder j ≤ level holder index :=
  ⟨exists_stop_of_inRange, fun h => ⟨_, checked_setMark_eq 0 h⟩⟩

/-- A call in range is the call, whatever a read past the last row would yield. -/
theorem eq_setMark_of_inRange (h : InRange (Checked.setMark holder index mark)) (pastLevel : ℤ) :
    Checked.setMark holder index mark = .ok (setMark pastLevel holder index mark) :=
  checked_setMark_eq pastLevel (exists_stop_of_inRange h)

/-- The calls out of range are those at the last row and at the directories it is in. -/
theorem not_inRange_iff_covers_last (hi : index < holder.length) :
    ¬ InRange (Checked.setMark holder index mark) ↔
      Covers (level holder) index (holder.length - 1) := by
  rw [covers_last_iff hi]
  constructor
  · intro hout j hij hj
    by_contra hle
    exact hout ⟨_, checked_setMark_eq 0 ⟨j, hij, hj, not_lt.1 hle⟩⟩
  · intro hall hin
    obtain ⟨j, hij, hj, hle⟩ := exists_stop_of_inRange hin
    exact absurd hle (not_le.2 (hall j hij hj))

/-- The rows of a torrent of one file have nothing after the only row. -/
theorem not_inRange_oneFile : ∃ holder, pickDownloadFiles [] [text "a"] = .ok holder ∧
    holder.length = 1 ∧ ¬ InRange (Checked.setMark holder 0 true) := by
  refine ⟨[⟨text "a", 1, false, true, 0⟩], rfl, rfl, ?_⟩
  rintro ⟨holder, hholder⟩
  cases hholder

end FilesPicker

end TorrentX
