import TorrentX.Client.Marks
import TorrentX.Machinery.Forest
import TorrentX.Machinery.QString
import TorrentX.Machinery.Run

/-!
# Client/Selection — the marks of a file list, over whole sequences of calls

What a user has selected is a set of leaves: a leaf is in when the last call that covers it marked
(`LastMarks`).  The marks of the rows reflect that set after every sequence of calls
(`reflects_of_calls`), so a directory is marked exactly when every file below it is.  A saved
selection is restored because the marked rows, marked one after another, select the same leaves.
-/

namespace TorrentX

open Outline Wire

namespace FilesPicker

/-! ## Calls

Of a sequence of calls it matters for a leaf which of them cover it, and of these the last.  Adding
calls at the end, this is decided one call at a time. -/

/-- One call of `setMark`, with the level its read past the last row yields. -/
structure SetMark where
  index : ℕ
  mark : Bool
  pastLevel : ℤ

/-- The holder after a sequence of calls. -/
def setMarks (holder : List FileNode) (calls : List SetMark) : List FileNode :=
  calls.foldl (fun holder c => setMark c.pastLevel holder c.index c.mark) holder

/-- A call after a sequence of calls is a call on the rows they leave. -/
theorem setMarks_snoc (holder : List FileNode) (calls : List SetMark) (c : SetMark) :
    setMarks holder (calls ++ [c])
      = setMark c.pastLevel (setMarks holder calls) c.index c.mark := List.foldl_append

/-- The last call whose index satisfies `P` was a marking one, and there was such a call. -/
def LastMarks (P : ℕ → Prop) (calls : List SetMark) : Prop :=
  ∃ pre c post, calls = pre ++ c :: post ∧ P c.index ∧ c.mark = true ∧ ∀ d ∈ post, ¬ P d.index

theorem not_lastMarks_nil (P : ℕ → Prop) : ¬ LastMarks P [] := by
  rintro ⟨pre, c, post, h, -⟩
  exact absurd h (by simp)

/-- The last call decides, if it is of the kind that counts. -/
theorem lastMarks_snoc (P : ℕ → Prop) (calls : List SetMark) (c : SetMark) :
    LastMarks P (calls ++ [c]) ↔
      (P c.index ∧ c.mark = true) ∨ (¬ P c.index ∧ LastMarks P calls) := by
  constructor
  · rintro ⟨pre, d, post, h, hP, hd, hpost⟩
    rcases snoc_eq_append_cons_iff.1 h with ⟨rfl, rfl, rfl⟩ | ⟨post, rfl, rfl⟩
    · exact .inl ⟨hP, hd⟩
    · rw [List.forall_mem_append] at hpost
      exact .inr ⟨hpost.2 c (by simp), pre, d, post, rfl, hP, hd, hpost.1⟩
  · rintro (⟨hP, hc⟩ | ⟨hP, pre, d, post, rfl, hd, hmark, hpost⟩)
    · exact ⟨calls, c, [], rfl, hP, hc, by simp⟩
    · refine ⟨pre, d, post ++ [c], by simp, hd, hmark, ?_⟩
      rw [List.forall_mem_append]
      exact ⟨hpost, by simpa using hP⟩

/-- Among calls that all mark, the last that satisfies `P` does. -/
theorem lastMarks_iff_exists {P : ℕ → Prop} {calls : List SetMark}
    (h : ∀ c ∈ calls, c.mark = true) : LastMarks P calls ↔ ∃ c ∈ calls, P c.index := by
  induction calls using List.reverseRecOn with
  | nil => exact iff_of_false (not_lastMarks_nil P) (by simp)
  | append_singleton calls c ih =>
    rw [List.forall_mem_append] at h
    rw [lastMarks_snoc, ih h.1]
    have hc := h.2 c (by simp)
    by_cases hP : P c.index <;> simp [hP, hc, or_and_right, exists_or]

/-! ## Every sequence of calls -/

/-- **After every sequence of calls the marks reflect the leaves last marked.** -/
theorem reflects_of_calls {rows : List FileNode} {calls : List SetMark}
    (hrange : ∀ c ∈ calls, c.index < rows.length) :
    ∃ m, setMarks (withMarks rows fun _ => false) calls = withMarks rows m ∧
      Reflects rows.length (level rows)
        (fun l => LastMarks (fun k => Covers (level rows) k l) calls) m := by
  induction calls using List.reverseRecOn with
  | nil =>
    refine ⟨_, rfl, ?_⟩
    rw [show (fun l => LastMarks (fun k => Covers (level rows) k l) []) = fun _ => False from
      funext fun l => eq_false (not_lastMarks_nil _)]
    exact reflects_false
  | append_singleton calls c ih =>
    rw [List.forall_mem_append] at hrange
    have hc := hrange.2 c (by simp)
    obtain ⟨m, hm, hreflects⟩ := ih hrange.1
    obtain ⟨m', hm', hmarking⟩ := marking_of_setMark c.pastLevel c.mark m hc
    refine ⟨m', ?_, ?_⟩
    · rw [setMarks_snoc, hm, hm']
    · rw [funext fun l => propext (lastMarks_snoc (fun k => Covers (level rows) k l) calls c)]
      exact reflects_step hreflects hc hmarking

/-! ## Listings of a forest

Rows are levels, and a forest has directories.  The two ways of saying what is below what agree on a
listing, so results on rows are results on the torrent. -/

variable {α : Type*} {F : Forest α} {lvl : ℕ} {holder : List FileNode}

/-- The rows are the preorder listing of a forest, none of them marked. -/
structure Lists (F : Forest α) (lvl : ℕ) (holder : List FileNode) : Prop where
  levels : holder.map FileNode.level = (F.listing lvl).map fun row => (row.level : ℤ)
  unmarked : ∀ node ∈ holder, node.isMarked = false

/-- A row for each node. -/
theorem Lists.length_eq (h : Lists F lvl holder) : holder.length = F.size := by
  have hlen := congrArg List.length h.levels
  rwa [List.length_map, List.length_map, Forest.length_listing] at hlen

/-- A row is at the level of its node. -/
theorem Lists.level_eq (h : Lists F lvl holder) (i : ℕ) : level holder i = F.level lvl i := by
  have hi := congrArg (fun l => l[i]?.getD 0) h.levels
  simp only [List.getElem?_map] at hi
  refine hi.trans ?_
  rw [Forest.level]
  cases (F.listing lvl)[i]? <;> rfl

theorem Lists.eq_withMarks (h : Lists F lvl holder) :
    holder = withMarks holder fun _ => false := by
  refine List.ext_getElem? fun k => ?_
  rw [withMarks, List.getElem?_mapIdx]
  cases hk : holder[k]? with
  | none => rfl
  | some node =>
    have hnode := h.unmarked node (List.mem_of_getElem? hk)
    rw [Option.map_some, ← hnode]

/-- The rows head each other as the positions of the forest lie below each other. -/
theorem Lists.heads_iff (h : Lists F lvl holder) {i j : ℕ} (hj : j < holder.length) :
    Heads (level holder) i j ↔ F.Below i j := by
  rw [F.below_iff_heads lvl (h.length_eq ▸ hj)]
  simp only [Heads, h.level_eq, Nat.cast_lt]

/-- A row covers itself and what is below it. -/
theorem Lists.covers_iff (h : Lists F lvl holder) {i j : ℕ} (hj : j < holder.length) :
    Covers (level holder) i j ↔ i = j ∨ F.Below i j := by
  rw [Covers, h.heads_iff hj, eq_comm]

/-- A row that covers nothing else is a leaf. -/
theorem Lists.leaf_iff (h : Lists F lvl holder) {i : ℕ} :
    Leaf holder.length (level holder) i ↔ F.IsLeaf i := by
  rw [Leaf, Forest.IsLeaf, h.length_eq]
  refine and_congr_right fun _ => ⟨fun hh j hb => ?_, fun hh j hj hheads => ?_⟩
  · exact hh j hb.lt_size ((h.heads_iff (h.length_eq ▸ hb.lt_size)).2 hb)
  · exact hh j ((h.heads_iff (h.length_eq ▸ hj)).1 hheads)

/-- The mark of a leaf is that of the last call at it or above it. -/
theorem Lists.mark_of_isLeaf (h : Lists F lvl holder) {calls : List SetMark} {m : ℕ → Bool}
    (hreflects : Reflects holder.length (level holder)
      (fun l => LastMarks (fun k => Covers (level holder) k l) calls) m) {i : ℕ}
    (hi : F.IsLeaf i) : m i = true ↔ LastMarks (fun k => k = i ∨ F.Below k i) calls := by
  have hleaf := h.leaf_iff.2 hi
  rw [hreflects.leaf hleaf]
  simp only [h.covers_iff hleaf.1]

/-- **Selection is last-writer-wins on files and exact on directories.**  After every sequence of
calls a leaf row is marked exactly when the last call at it or above it was a marking one, and a
row that is no leaf exactly when every leaf row below it is marked. -/
theorem setMarks_lastWriter (h : Lists F lvl holder) {calls : List SetMark}
    (hrange : ∀ c ∈ calls, c.index < holder.length) {i : ℕ} (hi : i < holder.length) :
    (F.IsLeaf i → (isMarkedAt (setMarks holder calls) i = true ↔
      LastMarks (fun k => k = i ∨ F.Below k i) calls)) ∧
    (¬ F.IsLeaf i → (isMarkedAt (setMarks holder calls) i = true ↔
      ∀ l, F.IsLeaf l → F.Below i l → isMarkedAt (setMarks holder calls) l = true)) := by
  obtain ⟨m, hm, hreflects⟩ := reflects_of_calls hrange
  rw [h.eq_withMarks, hm, isMarkedAt_withMarks _ _ hi]
  refine ⟨h.mark_of_isLeaf hreflects, fun hnot => ?_⟩
  · rw [hreflects i hi]
    refine forall_congr' fun l => ⟨fun hall hl hb => ?_, fun hall hl hc => ?_⟩
    · have hlr := h.leaf_iff.2 hl
      rw [isMarkedAt_withMarks _ _ hlr.1, hreflects.leaf hlr]
      exact hall hlr (.inr ((h.heads_iff hlr.1).2 hb))
    · have hb : F.Below i l := (h.heads_iff hl.1).1 (hc.resolve_left fun heq =>
        hnot (h.leaf_iff.1 (heq ▸ hl)))
      have := hall (h.leaf_iff.1 hl) hb
      rwa [isMarkedAt_withMarks _ _ hl.1, hreflects.leaf hl] at this

/-- A directory of two files, and a file beside it. -/
def twoFilesAndOne : List FileNode :=
  [{ name := text "d", level := 1, isMarked := false },
    { name := text "x", level := 2, isMarked := false, isLeaf := true },
    { name := text "y", level := 2, isMarked := false, isLeaf := true },
    { name := text "z", level := 1, isMarked := false, isLeaf := true }]

def twoFilesAndOneForest : Forest Unit :=
  .cons () (.cons () .nil (.cons () .nil .nil)) (.cons () .nil .nil)

theorem lists_twoFilesAndOne : Lists twoFilesAndOneForest 1 twoFilesAndOne := ⟨rfl, by decide⟩

/-- The directory is marked and its first file cleared: the second file stays marked. -/
theorem setMarks_lastWriter_twoFilesAndOne :
    isMarkedAt (setMarks twoFilesAndOne [⟨0, true, 0⟩, ⟨1, false, 0⟩]) 2 = true := by
  have hnot : ∀ j, ¬ twoFilesAndOneForest.Below 2 j := fun j hb => by
    have hh := hb.heads 1
    have hlt := hb.lt_size
    exact absurd (hh.2 3 (by decide) (Nat.succ_le_of_lt hh.1)) (by decide)
  have hbeside : ¬ (1 = 2 ∨ twoFilesAndOneForest.Below 1 2) := by
    rintro (h | h)
    · exact absurd h (by decide)
    · exact absurd ((h.heads 1).2 2 (by decide) le_rfl) (by decide)
  exact ((setMarks_lastWriter lists_twoFilesAndOne (by decide) (by decide)).1
    ⟨by decide, hnot⟩).2 ⟨[], ⟨0, true, 0⟩, [⟨1, false, 0⟩], rfl, .inr (.root (by decide)), rfl,
      by simpa using hbeside⟩

/-! ## Saving and restoring

The string has a digit for each row, and only the ones are replayed.  The zeros need no call: the
rows have been picked just before, and nothing is marked. -/

/-- The string `on_action_open_torrent_triggered` makes of the marks. -/
def encodeMarks (marks : List Bool) : QString :=
  marks.map fun element => QString.unit (if element then '1' else '0')

/-- The loop of `read_database` over a stored string, from index `i` on.  The read past the last row
yields `pastLevel i` in the call for row `i`. -/
def replayFrom (pastLevel : ℕ → ℤ) : ℕ → QString → List FileNode → List FileNode
  | _, [], holder => holder
  | i, c :: marks, holder =>
    replayFrom pastLevel (i + 1) marks
      (if c = QString.unit '1' then setMark (pastLevel i) holder i true else holder)

def replay (pastLevel : ℕ → ℤ) (marks : QString) (holder : List FileNode) : List FileNode :=
  replayFrom pastLevel 0 marks holder

/-- The calls the loop makes for the marks from index `i` on. -/
def replayCalls (pastLevel : ℕ → ℤ) : ℕ → List Bool → List SetMark
  | _, [] => []
  | i, b :: marks =>
    (if b then [⟨i, true, pastLevel i⟩] else []) ++ replayCalls pastLevel (i + 1) marks

/-- The replay is a sequence of calls. -/
theorem replayFrom_eq (pastLevel : ℕ → ℤ) (marks : List Bool) (i : ℕ) (holder : List FileNode) :
    replayFrom pastLevel i (encodeMarks marks) holder
      = setMarks holder (replayCalls pastLevel i marks) := by
  induction marks generalizing i holder with
  | nil => rfl
  | cons b marks ih =>
    rw [replayCalls, setMarks, List.foldl_append, ← setMarks, ← ih]
    cases b <;> rfl

/-- Each call of the replay marks, at a mark that is stored. -/
theorem mem_replayCalls {pastLevel : ℕ → ℤ} {marks : List Bool} {i : ℕ} {c : SetMark}
    (h : c ∈ replayCalls pastLevel i marks) :
    c.mark = true ∧ i ≤ c.index ∧ marks[c.index - i]? = some true := by
  induction marks generalizing i with
  | nil => exact absurd h (List.not_mem_nil)
  | cons b marks ih =>
    rw [replayCalls, List.mem_append] at h
    rcases h with h | h
    · cases b with
      | false => exact absurd h (List.not_mem_nil)
      | true =>
        obtain rfl := List.mem_singleton.1 h
        exact ⟨rfl, le_rfl, by simp⟩
    · obtain ⟨hmark, hle, hget⟩ := ih h
      refine ⟨hmark, by omega, ?_⟩
      rwa [show c.index - i = c.index - (i + 1) + 1 by omega, List.getElem?_cons_succ]

/-- Each stored mark has its call. -/
theorem exists_mem_replayCalls {pastLevel : ℕ → ℤ} {marks : List Bool} {i k : ℕ}
    (h : marks[k]? = some true) : ∃ c ∈ replayCalls pastLevel i marks, c.index = i + k := by
  induction marks generalizing i k with
  | nil => simp at h
  | cons b marks ih =>
    rw [replayCalls]
    rcases k with _ | k
    · obtain rfl : b = true := by simpa using h
      exact ⟨_, List.mem_append_left _ (List.mem_singleton_self _), rfl⟩
    · obtain ⟨c, hc, hindex⟩ := ih (by simpa using h)
      exact ⟨c, List.mem_append_right _ hc, by omega⟩

/-- **A saved selection is restored exactly.**  The marks after any sequence of calls, stored and
replayed over the unmarked rows, are the marks again: a marked row covers only leaves that are in,
and every leaf that is in is itself a marked row. -/
theorem getMarks_replay (h : Lists F lvl holder) {calls : List SetMark}
    (hrange : ∀ c ∈ calls, c.index < holder.length) (pastLevel : ℕ → ℤ) :
    getMarks (replay pastLevel (encodeMarks (getMarks (setMarks holder calls))) holder)
      = getMarks (setMarks holder calls) := by
  obtain ⟨m, hm, hreflects⟩ := reflects_of_calls hrange
  rw [← h.eq_withMarks] at hm
  have hget : ∀ k, (getMarks (withMarks holder m))[k]? = some true ↔
      k < holder.length ∧ m k = true := fun k => by
    rw [getMarks_withMarks]
    simp [List.getElem?_map, Option.map_eq_some_iff, List.getElem?_eq_some_iff]
  rw [replay, replayFrom_eq, hm]
  have hrange' : ∀ c ∈ replayCalls pastLevel 0 (getMarks (withMarks holder m)),
      c.index < holder.length := fun c hc => ((hget _).1 (mem_replayCalls hc).2.2).1
  obtain ⟨m', hm', hreflects'⟩ := reflects_of_calls hrange'
  rw [← h.eq_withMarks] at hm'
  rw [hm', getMarks_withMarks, getMarks_withMarks]
  refine List.map_congr_left fun i hi => ?_
  refine hreflects'.eq_of_leaf hreflects (fun l hl => ?_) (List.mem_range.1 hi)
  rw [lastMarks_iff_exists fun c hc => (mem_replayCalls hc).1]
  constructor
  · rintro ⟨c, hc, hcov⟩
    obtain ⟨hlt, hmark⟩ := (hget _).1 (mem_replayCalls hc).2.2
    exact (hreflects c.index hlt).1 hmark l hl hcov
  · intro hlast
    have hl' := (hget l).2 ⟨hl.1, (hreflects.leaf hl).2 hlast⟩
    obtain ⟨c, hc, hindex⟩ := @exists_mem_replayCalls pastLevel _ 0 l hl'
    exact ⟨c, hc, .inl (by omega)⟩

/-- The directory is marked and its first file cleared: what is stored is the other file. -/
theorem getMarks_replay_twoFilesAndOne :
    getMarks (replay (fun _ => 0) (encodeMarks [false, false, true, false]) twoFilesAndOne)
      = [false, false, true, false] :=
  @getMarks_replay _ _ _ _ lists_twoFilesAndOne [⟨0, true, 0⟩, ⟨1, false, 0⟩] (by decide) fun _ => 0

end FilesPicker

end TorrentX
